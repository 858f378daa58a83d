import Motif.Proofs.Canonical
import Motif.Proofs.Rereading

/-!
Traces as lines. A text is written with a mark before every character that could end a line, so
the line of an event holds no line break, whatever its strings and keys hold. So a trace falls
apart at its line breaks into the lines that it was put together from, and each of them is read
back as its event.
-/

namespace Motif

namespace Json

/-! ### No line break inside of a line -/

/-- Control characters are written as other ones, and all others as they are, with or without a
mark. -/
theorem newline_notMem_escapeChar (c : Char) : '\n' ∉ escapeChar c := by
  have hcontrols : ∀ n < 32, '\n' ∉ escapeChar (Char.ofNat n) := by decide
  rcases Nat.lt_or_ge c.toNat 32 with hcontrol | hplain
  · have hnot := hcontrols c.toNat hcontrol
    rwa [Char.ofNat_toNat] at hnot
  · have hne : '\n' ≠ c := by
      rintro rfl
      exact absurd hplain (by decide)
    unfold escapeChar
    repeat' split
    all_goals simp [hne]

theorem newline_notMem_writeString (s : String) : '\n' ∉ writeString s := by
  have hcharacters : '\n' ∉ s.toList.flatMap escapeChar := fun h => by
    obtain ⟨c, -, hc⟩ := List.mem_flatMap.mp h
    exact newline_notMem_escapeChar c hc
  simp [writeString, hcharacters]

theorem newline_notMem_enclose {opening closing : Char} (hopening : '\n' ≠ opening)
    (hclosing : '\n' ≠ closing) {parts : List (List Char)} (h : ∀ part ∈ parts, '\n' ∉ part)
    (level : Nat) : '\n' ∉ Layout.compact.enclose level opening closing parts := by
  cases parts with
  | nil => simp [Layout.enclose, hopening, hclosing]
  | cons part parts =>
    have hparts : '\n' ∉ Layout.following [] parts := fun hmem => by
      obtain ⟨other, hother, hmem⟩ := List.mem_flatMap.mp hmem
      have hnot := h other (List.mem_cons_of_mem part hother)
      simp [hnot] at hmem
    have hpart := h part List.mem_cons_self
    rw [Layout.enclose_cons]
    simp [Layout.margin, Layout.gap, hopening, hclosing, hpart, hparts]

/-- A value is written on one line, wherever it stands, and read back from there. -/
def Framed (v : Value) : Prop :=
  ∀ level, ∃ text, writeAt .compact level v = .ok text ∧ '\n' ∉ text ∧ ReadsBack text v

theorem framed_writeItems {items : List Value} (h : ∀ v ∈ items, Framed v) (level : Nat) :
    ∃ texts, writeItems .compact level items = .ok texts ∧ (∀ text ∈ texts, '\n' ∉ text) ∧
      List.Forall₂ ReadsBack texts items := by
  induction items with
  | nil => exact ⟨[], rfl, List.forall_mem_nil _, .nil⟩
  | cons v rest ih =>
    obtain ⟨hv, hrest⟩ := List.forall_mem_cons.mp h
    obtain ⟨text, hwrite, hunbroken, hreads⟩ := hv level
    obtain ⟨texts, hwrites, hlater, hall⟩ := ih hrest
    refine ⟨text :: texts, ?_, List.forall_mem_cons.mpr ⟨hunbroken, hlater⟩, .cons hreads hall⟩
    rw [writeItems, hwrite, hwrites]
    rfl

theorem framed_writeEntries {entries : Entries String Value}
    (h : ∀ entry ∈ entries, Framed entry.2) (level : Nat) :
    ∃ parts, writeEntries .compact level (entries.map fun entry => (.str entry.1, entry.2)) =
        .ok parts ∧ (∀ part ∈ parts, '\n' ∉ part) ∧
      List.Forall₂ (Labelled .compact) parts entries := by
  induction entries with
  | nil => exact ⟨[], rfl, List.forall_mem_nil _, .nil⟩
  | cons entry rest ih =>
    obtain ⟨hentry, hrest⟩ := List.forall_mem_cons.mp h
    obtain ⟨text, hwrite, hunbroken, hreads⟩ := hentry level
    obtain ⟨parts, hwrites, hlater, hall⟩ := ih hrest
    have hpart : '\n' ∉ writeString entry.1 ++ Layout.compact.colon ++ text := by
      simp [Layout.colon, newline_notMem_writeString, hunbroken]
    refine ⟨_ :: parts, ?_, List.forall_mem_cons.mpr ⟨hpart, hlater⟩,
      .cons ⟨text, rfl, hreads⟩ hall⟩
    rw [List.map_cons, writeEntries, hwrite, hwrites]
    rfl

namespace Framed

theorem str (s : String) : Framed (.str s) :=
  fun _ => ⟨_, rfl, newline_notMem_writeString s, .str s⟩

theorem bool (b : Bool) : Framed (.bool b) := by
  cases b with
  | false => exact fun _ => ⟨_, rfl, by decide, .bool false⟩
  | true => exact fun _ => ⟨_, rfl, by decide, .bool true⟩

theorem int (n : Int) : Framed (.int n) := by
  refine fun _ => ⟨_, rfl, ?_, .int n⟩
  have hdigits (m : Nat) : '\n' ∉ digits m := fun h => by
    cases isDigit_of_mem_digits h
  cases n with
  | ofNat n =>
    rw [toList_toString_ofNat]
    exact hdigits n
  | negSucc n =>
    rw [toList_toString_negSucc]
    simp [hdigits]

theorem list {items : List Value} (h : ∀ v ∈ items, Framed v) : Framed (.seq .list items) := by
  intro level
  obtain ⟨texts, hwrites, hunbroken, hall⟩ := framed_writeItems h (level + 1)
  refine ⟨Layout.compact.enclose level '[' ']' texts, ?_,
    newline_notMem_enclose (by decide) (by decide) hunbroken level, .list hall⟩
  rw [writeAt, hwrites]
  rfl

theorem record {entries : Entries String Value} (hkeys : entries.keys.Nodup)
    (h : ∀ entry ∈ entries, Framed entry.2) : Framed (.record entries) := by
  intro level
  obtain ⟨parts, hwrites, hunbroken, hall⟩ := framed_writeEntries h (level + 1)
  refine ⟨Layout.compact.enclose level (Char.ofNat 123) (Char.ofNat 125) parts, ?_,
    newline_notMem_enclose (by decide) (by decide) hunbroken level, .record hkeys hall⟩
  rw [Value.record, writeAt, hwrites]
  rfl

/-- Plain data without floating-point numbers. -/
theorem of_spelled {v : Value} (h : v.Spelled false) : Framed v := by
  induction h with
  | null => exact fun _ => ⟨_, rfl, by decide, .null⟩
  | bool b => exact .bool b
  | int n => exact .int n
  | float x h => cases h
  | str s => exact .str s
  | list items _ ih => exact .list ih
  | record entries hkeys _ ih => exact .record hkeys ih

/-- A number with digits after its point, and with neither a sign nor an exponent. -/
theorem readNumber_fraction {c : Char} {text whole rest digits after : List Char} (hsign : c ≠ '-')
    (hwhole : readWhole (c :: text) = some (whole, rest))
    (hfraction : readFraction rest = some (digits, after)) (hexponent : readExponent after = none) :
    readNumber (c :: text) =
      some (.float (Binary64.ofDecimal false (naturalOf (whole ++ digits)) (0 - digits.length)),
        after) := by
  unfold readNumber
  split
  next negative unsigned heq =>
    split at heq
    · next found hcons => exact absurd (List.cons.inj hcons).1 hsign
    · cases heq
      simp [hwhole, hfraction, hexponent]

/-- The only floating-point number that an event can have for its version. -/
theorem float_one : Framed (.float (.finite false Place.stepsPerUnit)) := by
  have htext : NumberLayout.data.write (.finite false Place.stepsPerUnit) = "1.0" := by
    decide +kernel
  have hvalue : Binary64.ofDecimal false (naturalOf (['1'] ++ ['0'])) (0 - ['0'].length) =
      .finite false Place.stepsPerUnit := by
    decide +kernel
  have hzero : ∀ c ∈ ['0'], isDigit c = true := List.forall_mem_singleton.mpr rfl
  refine fun _ => ⟨['1', '.', '0'], ?_, by decide, ?_⟩
  · rw [writeAt, htext]
    rfl
  · refine .of_cons (by decide) fun fuel rest _ hstops => ?_
    have htake : ('0' :: rest).takeWhile isDigit = ['0'] := takeWhile_digits hzero hstops
    have hdrop : ('0' :: rest).dropWhile isDigit = rest := dropWhile_digits hzero hstops
    have hfraction : readFraction ('.' :: '0' :: rest) = some (['0'], rest) := by
      simp only [readFraction, htake, hdrop]
      rfl
    have hwhole : readWhole ('1' :: '.' :: '0' :: rest) = some (['1'], '.' :: '0' :: rest) := rfl
    have hnumber :=
      readNumber_fraction (by decide) hwhole hfraction (readExponent_of_stops hstops)
    rw [hvalue] at hnumber
    rw [List.cons_append, readValue_scalar (by decide), readWord_of_isDigit (by decide),
      Option.none_or]
    exact hnumber

/-- What is written is a line that is read back. -/
theorem exists_line {v : Value} (h : Framed v) :
    ∃ line, write .compact v = .ok line ∧ '\n' ∉ line.toList ∧ read line = some v := by
  obtain ⟨text, hwrite, hunbroken, hreads⟩ := h 0
  refine ⟨String.ofList text, ?_, by rwa [String.toList_ofList], ?_⟩
  · rw [write, hwrite]
    rfl
  · have hread := read_of_readsBack hreads (List.forall_mem_nil _)
    rwa [List.append_nil] at hread

end Framed

end Json

/-! ### Canonical events -/

namespace Value

theorem place?_of_beq_int {v : Value} {n : Int} (h : (v == .int n) = true) :
    v.place? = some (.ofInt n) := by
  cases hplace : v.place? with
  | some place => exact ((looselyEqual_of_place? hplace (.int n)).mp h).symm
  | none =>
    have hequal : v.looselyEqual (.int n) = true := h
    cases v with
    | float x => cases x <;> simp_all [looselyEqual]
    | _ => simp_all [looselyEqual]

/-- What equals 1: the integer, the truth value and the floating-point number. -/
theorem eq_of_beq_one {v : Value} (h : (v == .int 1) = true) :
    v = .int 1 ∨ v = .bool true ∨ v = .float (.finite false Place.stepsPerUnit) := by
  have hplace := place?_of_beq_int h
  cases v with
  | int n =>
    rw [ofInt_inj (Option.some.inj hplace)]
    exact .inl rfl
  | bool b =>
    cases b with
    | true => exact .inr (.inl rfl)
    | false => cases ofInt_inj (Option.some.inj hplace)
  | float x =>
    have hone : Place.ofInt 1 = .steps Place.stepsPerUnit := congrArg Place.steps (Int.one_mul _)
    have hpos := Place.stepsPerUnit_pos
    rw [hone] at hplace
    -- No step of the proof may compute the number of steps.
    generalize Place.stepsPerUnit = unit at hplace hpos
    cases x with
    | nan tag => cases hplace
    | infinite negative => cases negative <;> cases hplace
    | finite negative steps =>
      cases negative with
      | true =>
        have hsteps := Place.steps.inj (Option.some.inj hplace)
        omega
      | false =>
        have hsteps := Place.steps.inj (Option.some.inj hplace)
        rw [Int.ofNat_inj.mp hsteps]
        exact .inr (.inr rfl)
  | _ => cases hplace

theorem spelled_deeplySorted {floats : Bool} {v w : Value} (h : v.Spelled floats)
    (hsorted : deeplySorted v = .ok w) : w.Spelled floats := by
  induction h generalizing w with
  | null =>
    cases hsorted
    exact .null
  | bool b =>
    cases hsorted
    exact .bool b
  | int n =>
    cases hsorted
    exact .int n
  | float x hfloats =>
    cases hsorted
    exact .float x hfloats
  | str s =>
    cases hsorted
    exact .str s
  | list items _ ih =>
    rw [deeplySorted_seq] at hsorted
    obtain ⟨sorted, hitems, rfl⟩ := exists_of_map_eq_ok hsorted
    refine .list sorted fun w hw => ?_
    obtain ⟨v, hv, hvalue⟩ := exists_of_mem_mapM hitems hw
    exact ih v hv hvalue
  | record entries hkeys _ ih =>
    rw [deeplySorted_record hkeys] at hsorted
    obtain ⟨sorted, hentries, rfl⟩ := exists_of_map_eq_ok hsorted
    refine .record sorted ?_ fun result hresult => ?_
    · rw [Entries.keys_of_mapM hentries]
      exact (Entries.ascending_sorted hkeys).nodup
    · obtain ⟨entry, hentry, hvalue⟩ := exists_of_mem_mapM hentries hresult
      obtain ⟨v, hv, rfl⟩ := exists_of_map_eq_ok hvalue
      exact ih entry ((Entries.perm_sorted entries).mem_iff.mp hentry) hv

end Value

/-! ### Lines -/

/-- Lines put together, each with a line break after it, fall apart into the same lines, and
nothing comes after the last line break. -/
theorem splitOn_lines {lines : List (List Char)} (h : ∀ line ∈ lines, '\n' ∉ line) :
    (lines.flatMap (· ++ ['\n'])).splitOn '\n' = lines ++ [[]] := by
  induction lines with
  | nil => rfl
  | cons line rest ih =>
    obtain ⟨hline, hrest⟩ := List.forall_mem_cons.mp h
    have hfirst : line.splitOn '\n' = [line] := List.splitOn_eq_singleton hline
    have hlater := ih hrest
    simp only [List.splitOn_eq_splitOnP] at hfirst hlater ⊢
    rw [List.flatMap_cons, List.append_assoc, List.singleton_append,
      List.splitOnP_append_cons _ _ (by decide), hfirst, hlater]
    rfl

theorem count_lines {lines : List (List Char)} (h : ∀ line ∈ lines, '\n' ∉ line) :
    (lines.flatMap (· ++ ['\n'])).count '\n' = lines.length := by
  induction lines with
  | nil => rfl
  | cons line rest ih =>
    obtain ⟨hline, hrest⟩ := List.forall_mem_cons.mp h
    rw [List.flatMap_cons, List.count_append, List.count_append, List.count_eq_zero.mpr hline,
      List.count_singleton_self, ih hrest, List.length_cons]
    omega

namespace Event

theorem framed_toValue {e : Event} (hversion : (e.version == .int 1) = true)
    (hdetails : ∀ details, e.details = some details → (Value.record details).Spelled false) :
    Json.Framed e.toValue := by
  have hone : Json.Framed e.version := by
    rcases Value.eq_of_beq_one hversion with h | h | h <;> rw [h]
    · exact .int 1
    · exact .bool true
    · exact .float_one
  have hkeys : e.fields.keys.Nodup := by
    rw [keys_fields]
    cases e.details.isSome <;> decide
  refine Json.Framed.record hkeys fun entry hentry => ?_
  obtain ⟨version, type, index, details⟩ := e
  cases details with
  | none =>
    simp only [List.append_nil, List.mem_cons, List.not_mem_nil, or_false] at hentry
    rcases hentry with rfl | rfl | rfl
    · exact hone
    · exact .str type.name
    · exact .int index
  | some details =>
    simp only [List.cons_append, List.nil_append, List.mem_cons, List.not_mem_nil,
      or_false] at hentry
    rcases hentry with rfl | rfl | rfl | rfl
    · exact hone
    · exact .str type.name
    · exact .int index
    · exact .of_spelled (hdetails details rfl)

/-- The details that are given with an event are plain data without floating-point numbers. -/
def PlainlyDetailed (given : Value) : Prop :=
  ∀ entries, given = .dict entries → ∀ details,
    Value.lookUp? (.str "meta") entries = some details → details.asData.Spelled false

theorem framed_of_ofValue {given : Value} {e : Event} (h : ofValue given = .ok e)
    (hplain : PlainlyDetailed given) : Json.Framed e.toValue := by
  cases given with
  | dict entries =>
    obtain ⟨hversion, hdetails⟩ := exists_of_ofValue h
    refine framed_toValue (beq_one_of_readVersion hversion).2 fun details hsome => ?_
    rcases hdetails with ⟨-, hnone⟩ | ⟨given, details', hread, hsorted, hsome'⟩
    · rw [hnone] at hsome
      cases hsome
    · rw [hsome'] at hsome
      cases hsome
      rw [← Value.deeplySorted_asData] at hsorted
      exact Value.spelled_deeplySorted
        (hplain entries rfl _ (lookUp?_of_readDetails hread)) hsorted
  | _ => cases h

theorem exists_lines {events : List Event} (h : ∀ e ∈ events, Json.Framed e.toValue) :
    ∃ lines, events.mapM (fun e => Json.write .compact e.toValue) = .ok lines ∧
      (∀ line ∈ lines, '\n' ∉ line.toList) ∧
      List.Forall₂ (fun line e => Json.read line = some e.toValue) lines events := by
  induction events with
  | nil => exact ⟨[], rfl, List.forall_mem_nil _, .nil⟩
  | cons e rest ih =>
    obtain ⟨he, hrest⟩ := List.forall_mem_cons.mp h
    obtain ⟨line, hwrite, hunbroken, hread⟩ := he.exists_line
    obtain ⟨lines, hwrites, hlater, hreads⟩ := ih hrest
    refine ⟨line :: lines, ?_, List.forall_mem_cons.mpr ⟨hunbroken, hlater⟩, .cons hread hreads⟩
    rw [List.mapM_cons, hwrite, hwrites]
    rfl

/-- The text of a trace is one line for each event: it falls apart at its line breaks into just as
many lines, each of which is read as the event it was written for, and is empty for no event. -/
theorem traceText_framed {form : Form} {given : List Value} {events : List Event}
    (h : traceOfValue (.seq form given) = .ok events)
    (hplain : ∀ v ∈ given, PlainlyDetailed v) :
    ∃ text lines, traceText (.seq form given) = .ok text ∧
      text.toList.count '\n' = given.length ∧
      text.toList.splitOn '\n' = lines.map String.toList ++ [[]] ∧
      List.Forall₂ (fun line e => Json.read line = some e.toValue) lines events ∧
      lines.length = given.length ∧ (text = "" ↔ given = []) := by
  obtain ⟨hmap, -⟩ := ofValues_eq_ok_iff.mp h
  have hlength := (mapM_eq_ok_iff.mp hmap).length_eq
  have hframed : ∀ e ∈ events, Json.Framed e.toValue := by
    intro e he
    obtain ⟨v, hv, hvalue⟩ := exists_of_mem_mapM hmap he
    exact framed_of_ofValue hvalue (hplain v hv)
  obtain ⟨lines, hwrites, hunbroken, hreads⟩ := exists_lines hframed
  have hcharacters : (String.join (lines.map (· ++ "\n"))).toList =
      (lines.map String.toList).flatMap (· ++ ['\n']) := by
    simp [String.toList_join, List.flatMap_map]
  have hall : ∀ line ∈ lines.map String.toList, '\n' ∉ line := by simpa using hunbroken
  have hlines : lines.length = given.length := hreads.length_eq.trans hlength.symm
  have hcount : (String.join (lines.map (· ++ "\n"))).toList.count '\n' = given.length := by
    rw [hcharacters, count_lines hall, List.length_map, hlines]
  refine ⟨String.join (lines.map (· ++ "\n")), lines, ?_, hcount, ?_, hreads, hlines, ?_, ?_⟩
  · simp only [traceText, traceLines, h, hwrites]
    rfl
  · rw [hcharacters, splitOn_lines hall]
  · intro hempty
    rw [hempty] at hcount
    exact List.eq_nil_of_length_eq_zero hcount.symm
  · rintro rfl
    rw [List.eq_nil_of_length_eq_zero hlines]
    rfl

/-- Line breaks, quotation marks and backslashes in keys and strings, and a version that is a
floating-point number. -/
theorem traceText_framed_breaks :
    ∃ text line, traceText (.list [.record [("v", .float (.finite false Place.stepsPerUnit)),
        ("type", .str "match.end"), ("i", .int 0),
        ("meta", .record [("z\"", .null), ("a\n", .seq .tuple [.str "\\\n\r", .int (-2)])])]]) =
          .ok text ∧
      text.toList.count '\n' = 1 ∧ text.toList.splitOn '\n' = [line.toList, []] ∧
      Json.read line = some (.record [("v", .float (.finite false Place.stepsPerUnit)),
        ("type", .str "match.end"), ("i", .int 0),
        ("meta", .record [("a\n", .list [.str "\\\n\r", .int (-2)]), ("z\"", .null)])]) := by
  have hone : (Value.float (.finite false Place.stepsPerUnit) == .int 1) = true := by
    decide +kernel
  let items : List Value := [.str "\\\n\r", .int (-2)]
  let details : Entries String Value := [("z\"", .null), ("a\n", .seq .tuple items)]
  let given : Entries String Value := [("v", .float (.finite false Place.stepsPerUnit)),
    ("type", .str "match.end"), ("i", .int 0), ("meta", .record details)]
  have hversion : readVersion (given.map fun entry => (.str entry.1, entry.2)) =
      .ok (.float (.finite false Place.stepsPerUnit)) := by
    rw [readVersion, Value.lookUp?_record]
    exact if_pos hone
  have htype : readType (given.map fun entry => (.str entry.1, entry.2)) = .ok .matchEnd := rfl
  have hindex : readIndex (given.map fun entry => (.str entry.1, entry.2)) = .ok 0 := rfl
  have hsorted : sortDetails (details.map fun entry => (.str entry.1, entry.2)) =
      .ok [("a\n", .list items), ("z\"", .null)] := by
    simp only [details, List.map_cons, List.map_nil, sortDetails, Value.entriesDeeplySorted,
      Value.sortedEntries, Value.textKeyed?, Option.map_some, Entries.sorted, List.foldl_cons,
      List.foldl_nil, Entries.place, String.reduceLT, if_true]
    rfl
  have hread := ofValue_eq_ok hversion htype hindex rfl hsorted
  have htrace := traceOfValue_singleton .list hread rfl
  have hplain : ∀ v ∈ [Value.record given], PlainlyDetailed v := by
    refine List.forall_mem_singleton.mpr fun entries hentries found hfound => ?_
    cases hentries
    rw [Value.lookUp?_record] at hfound
    cases hfound
    have hitems : ∀ v ∈ items, v.Spelled false := by
      simp [items, Value.Spelled.str, Value.Spelled.int]
    refine .record [("z\"", .null), ("a\n", .seq .list items)] (by decide) ?_
    simp [Value.Spelled.null, Value.Spelled.list items hitems]
  obtain ⟨text, lines, htext, hcount, hsplit, hreads, -, -⟩ := traceText_framed htrace hplain
  cases hreads with
  | cons hline hnone =>
    cases hnone
    exact ⟨text, _, htext, hcount, hsplit, hline⟩

end Event

end Motif
