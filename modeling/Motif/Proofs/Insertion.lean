import Mathlib.Data.List.Nodup
import Motif.Proofs.Canonical

/-!
What a trace does not depend on. The order in which the keys of a mapping were inserted is sorted
away, on every level; keys that no event has are never asked for; and tuples become lists. So two
lists of events that differ in nothing else have the same text, and if one of them is refused the
other one is refused for the same reason.
-/

namespace Motif

namespace Value

/-! ### Values under texts -/

/-- Entries whose keys are texts are the entries of a record. -/
theorem eq_map_keyText {entries : List (Value × Value)}
    (h : ∀ key ∈ entries.map (·.1), key.isText = true) :
    entries = (entries.map fun entry => (entry.1.keyText, entry.2)).map
      fun entry => (.str entry.1, entry.2) := by
  induction entries with
  | nil => rfl
  | cons entry rest ih =>
    obtain ⟨hfirst, hrest⟩ := List.forall_mem_cons.mp h
    obtain ⟨key, v⟩ := entry
    cases key with
    | str s => exact congrArg _ (ih hrest)
    | _ => cases hfirst

theorem map_fst_record (entries : Entries String Value) :
    (entries.map fun entry => (Value.str entry.1, entry.2)).map (·.1) =
      entries.keys.map Value.str := by
  rw [Entries.keys, List.map_map, List.map_map]
  rfl

theorem nodup_record {entries : Entries String Value} :
    ((entries.map fun entry => (Value.str entry.1, entry.2)).map (·.1)).Nodup ↔
      entries.keys.Nodup := by
  rw [map_fst_record]
  exact List.nodup_map_iff fun _ _ hequal => Value.str.inj hequal

theorem textKeyed_dict {entries : List (Value × Value)} :
    TextKeyed (.dict entries) ↔ (∀ key ∈ entries.map (·.1), key.isText = true) ∧
      (entries.map (·.1)).Nodup ∧ ∀ entry ∈ entries, TextKeyed entry.2 := by
  constructor
  · intro h
    cases h with
    | leaf _ h => cases h
    | record texts hkeys h =>
      refine ⟨fun key hkey => ?_, nodup_record.mpr hkeys, fun entry hentry => ?_⟩
      · rw [map_fst_record] at hkey
        obtain ⟨_, -, rfl⟩ := List.mem_map.mp hkey
        rfl
      · obtain ⟨text, htext, rfl⟩ := List.mem_map.mp hentry
        exact h text htext
  · rintro ⟨htexts, hkeys, h⟩
    have hentries := eq_map_keyText htexts
    rw [hentries] at hkeys ⊢
    refine .record _ (nodup_record.mp hkeys) fun text htext => ?_
    obtain ⟨entry, hentry, rfl⟩ := List.mem_map.mp htext
    exact h entry hentry

theorem textKeyed_seq {form : Form} {items : List Value} :
    TextKeyed (.seq form items) ↔ ∀ v ∈ items, TextKeyed v := by
  constructor
  · intro h
    cases h with
    | leaf _ h => cases h
    | seq _ _ h => exact h
  · exact .seq form items

/-! ### What reordering keeps -/

/-- Sorting a mapping under texts undoes any rearrangement of its entries. -/
theorem deeplySorted_perm {xs ys : List (Value × Value)} (hxs : TextKeyed (.dict xs))
    (hperm : xs.Perm ys) : deeplySorted (.dict xs) = deeplySorted (.dict ys) := by
  obtain ⟨htexts, hkeys, -⟩ := textKeyed_dict.mp hxs
  have hkeysPerm := hperm.map fun entry => entry.1
  have htextsYs : ∀ key ∈ ys.map (·.1), key.isText = true :=
    fun key hkey => htexts key (hkeysPerm.mem_iff.mpr hkey)
  have hkeysYs := hkeysPerm.nodup_iff.mp hkeys
  rw [eq_map_keyText htexts] at hkeys ⊢
  rw [eq_map_keyText htextsYs] at hkeysYs ⊢
  have hsame := hperm.map fun entry => (entry.1.keyText, entry.2)
  have hfirst := deeplySorted_record (nodup_record.mp hkeys)
  have hsecond := deeplySorted_record (nodup_record.mp hkeysYs)
  rw [Entries.sorted_eq_of_perm (nodup_record.mp hkeys) hsame] at hfirst
  exact hfirst.trans hsecond.symm

/-- Reordering leaves what holds no others as it is. -/
theorem Reordered.eq_or_isContainer {v w : Value} (h : Reordered v w) :
    v = w ∨ v.isContainer = true ∧ w.isContainer = true := by
  induction h with
  | refl v => exact .inl rfl
  | trans _ _ ihfirst ihsecond =>
    rcases ihfirst with rfl | ⟨hu, hv⟩
    · exact ihsecond
    · rcases ihsecond with rfl | ⟨-, hw⟩
      · exact .inr ⟨hu, hv⟩
      · exact .inr ⟨hu, hw⟩
  | entries | item | value => exact .inr ⟨rfl, rfl⟩

theorem Reordered.kind_eq {v w : Value} (h : Reordered v w) : v.kind = w.kind := by
  induction h with
  | refl v => rfl
  | trans _ _ ihfirst ihsecond => exact ihfirst.trans ihsecond
  | entries | item | value => rfl

theorem anyUnhashable?_append_cons {v w : Value} (h : v.unhashable? = w.unhashable?)
    (before after : List Value) :
    anyUnhashable? (before ++ v :: after) = anyUnhashable? (before ++ w :: after) := by
  induction before with
  | nil => rw [List.nil_append, List.nil_append, anyUnhashable?, anyUnhashable?, h]
  | cons item rest ih => rw [List.cons_append, List.cons_append, anyUnhashable?, anyUnhashable?, ih]

theorem Reordered.unhashable?_eq {v w : Value} (h : Reordered v w) :
    v.unhashable? = w.unhashable? := by
  induction h with
  | refl v => rfl
  | trans _ _ ihfirst ihsecond => exact ihfirst.trans ihsecond
  | entries | value => rfl
  | item form before after _ ih =>
    cases form with
    | list => rfl
    | tuple => exact anyUnhashable?_append_cons ih before after

/-- Reordering keeps values under texts, and they are sorted to the same. -/
theorem Reordered.deeplySorted_eq {v w : Value} (h : Reordered v w) (hv : TextKeyed v) :
    TextKeyed w ∧ deeplySorted v = deeplySorted w := by
  induction h with
  | refl v => exact ⟨hv, rfl⟩
  | trans _ _ ihfirst ihsecond =>
    obtain ⟨hbetween, hfirst⟩ := ihfirst hv
    obtain ⟨hw, hsecond⟩ := ihsecond hbetween
    exact ⟨hw, hfirst.trans hsecond⟩
  | @entries xs ys hperm =>
    refine ⟨?_, deeplySorted_perm hv hperm⟩
    obtain ⟨htexts, hkeys, hvalues⟩ := textKeyed_dict.mp hv
    have hkeysPerm := hperm.map fun entry => entry.1
    exact textKeyed_dict.mpr ⟨fun key hkey => htexts key (hkeysPerm.mem_iff.mpr hkey),
      hkeysPerm.nodup_iff.mp hkeys, fun entry hentry => hvalues entry (hperm.mem_iff.mpr hentry)⟩
  | item form before after _ ih =>
    obtain ⟨hbefore, hrest⟩ := List.forall_mem_append.mp (textKeyed_seq.mp hv)
    obtain ⟨hv, hafter⟩ := List.forall_mem_cons.mp hrest
    obtain ⟨hw, hsame⟩ := ih hv
    refine ⟨textKeyed_seq.mpr (List.forall_mem_append.mpr
      ⟨hbefore, List.forall_mem_cons.mpr ⟨hw, hafter⟩⟩), ?_⟩
    simp only [deeplySorted_seq, List.mapM_append, List.mapM_cons, hsame]
  | @value v w key before after _ ih =>
    obtain ⟨htexts, hkeys, hvalues⟩ := textKeyed_dict.mp hv
    obtain ⟨hbefore, hrest⟩ := List.forall_mem_append.mp hvalues
    obtain ⟨hv, hafter⟩ := List.forall_mem_cons.mp hrest
    obtain ⟨hw, hsame⟩ := ih hv
    have hfirst : (before ++ (key, v) :: after).map (·.1) =
        (before ++ (key, w) :: after).map (·.1) := by simp
    rw [hfirst] at htexts hkeys
    refine ⟨textKeyed_dict.mpr ⟨htexts, hkeys, List.forall_mem_append.mpr
      ⟨hbefore, List.forall_mem_cons.mpr ⟨hw, hafter⟩⟩⟩, ?_⟩
    simp only [deeplySorted_dict, List.map_append, List.map_cons, hsame]

/-! ### Looking keys up -/

theorem lookUp?_cons_self (name : String) (v : Value) (rest : List (Value × Value)) :
    lookUp? (.str name) ((.str name, v) :: rest) = some v := by
  have hequal : looselyEqual (.str name) (.str name) = true := looselyEqual_str.mpr rfl
  simp only [lookUp?, List.find?_cons, hequal, Option.map_some]

theorem lookUp?_cons_of_ne {name : String} {key : Value} (h : key ≠ .str name) (v : Value)
    (rest : List (Value × Value)) :
    lookUp? (.str name) ((key, v) :: rest) = lookUp? (.str name) rest := by
  have hdiffers : looselyEqual (.str name) key = false :=
    Bool.eq_false_iff.mpr fun hequal => h (looselyEqual_str.mp hequal)
  simp only [lookUp?, List.find?_cons, hdiffers]

/-- Where no key is there twice, the entry under a text is the one that bears it. -/
theorem lookUp?_str_eq_some_iff {entries : List (Value × Value)}
    (hkeys : (entries.map (·.1)).Nodup) {name : String} {v : Value} :
    lookUp? (.str name) entries = some v ↔ (.str name, v) ∈ entries := by
  constructor
  · intro h
    obtain ⟨key, hmem, hequal⟩ := lookUp?_eq_some h
    rwa [looselyEqual_str.mp hequal] at hmem
  · intro h
    induction entries with
    | nil => cases h
    | cons entry rest ih =>
      obtain ⟨key, w⟩ := entry
      obtain ⟨hnew, hrest⟩ := List.nodup_cons.mp hkeys
      rcases List.mem_cons.mp h with hfirst | hlater
      · cases hfirst
        exact lookUp?_cons_self name v rest
      · have hne : key ≠ .str name := fun hequal =>
          hnew (List.mem_map.mpr ⟨(.str name, v), hlater, hequal.symm⟩)
        rw [lookUp?_cons_of_ne hne, ih hrest hlater]

/-- The entries of a mapping; anything else has none. -/
def entriesOf : Value → List (Value × Value)
  | .dict entries => entries
  | _ => []

theorem Reordered.rel_refl (found : Option Value) : Option.Rel Reordered found found := by
  cases found with
  | none => exact .none
  | some v => exact .some (.refl v)

theorem Reordered.rel_trans {a b c : Option Value} (hfirst : Option.Rel Reordered a b)
    (hsecond : Option.Rel Reordered b c) : Option.Rel Reordered a c := by
  cases hfirst with
  | none => exact hsecond
  | some hfirst =>
    cases hsecond with
    | some hsecond => exact .some (hfirst.trans hsecond)

theorem Reordered.rel_getD {a b : Option Value} (h : Option.Rel Reordered a b) (default : Value) :
    Reordered (a.getD default) (b.getD default) := by
  cases h with
  | none => exact .refl default
  | some h => exact h

/-- What is found under a text in a mapping is found in a reordered one, but for its own order. -/
theorem Reordered.lookUp? {v w : Value} (h : Reordered v w) (hv : TextKeyed v) (name : String) :
    Option.Rel Reordered (Value.lookUp? (.str name) v.entriesOf)
      (Value.lookUp? (.str name) w.entriesOf) := by
  induction h with
  | refl v => exact rel_refl _
  | trans first _ ihfirst ihsecond =>
    exact rel_trans (ihfirst hv) (ihsecond (first.deeplySorted_eq hv).1)
  | @entries xs ys hperm =>
    obtain ⟨-, hkeys, -⟩ := textKeyed_dict.mp hv
    have hkeysYs := (hperm.map fun entry => entry.1).nodup_iff.mp hkeys
    have hsame : Value.lookUp? (.str name) xs = Value.lookUp? (.str name) ys := by
      refine Option.ext fun found => ?_
      rw [lookUp?_str_eq_some_iff hkeys, lookUp?_str_eq_some_iff hkeysYs, hperm.mem_iff]
    simp only [entriesOf, hsame]
    exact rel_refl _
  | item => exact .none
  | @value v w key before after hvalue _ =>
    simp only [entriesOf, Value.lookUp?, List.find?_append, List.find?_cons]
    cases before.find? fun other => looselyEqual (.str name) other.1 with
    | some entry => exact rel_refl _
    | none =>
      cases looselyEqual (.str name) key with
      | true => exact .some hvalue
      | false => exact rel_refl _

/-! ### Plain data -/

theorem TextKeyed.asData {v : Value} (h : TextKeyed v) : TextKeyed v.asData := by
  induction v using Value.induction with
  | seq form items ih =>
    rw [asData_seq]
    refine textKeyed_seq.mpr fun v hv => ?_
    obtain ⟨item, hitem, rfl⟩ := List.mem_map.mp hv
    exact ih item hitem (textKeyed_seq.mp h item hitem)
  | dict entries ih =>
    obtain ⟨htexts, hkeys, hvalues⟩ := textKeyed_dict.mp h
    rw [Value.asData, entriesAsData_eq_map]
    have hfirst : (entries.map fun entry => (entry.1, entry.2.asData)).map (·.1) =
        entries.map (·.1) := by rw [List.map_map]; rfl
    refine textKeyed_dict.mpr ⟨hfirst ▸ htexts, hfirst ▸ hkeys, fun entry hentry => ?_⟩
    obtain ⟨given, hgiven, rfl⟩ := List.mem_map.mp hentry
    exact (ih given hgiven).2 (hvalues given hgiven)
  | _ => exact .leaf _ rfl

end Value

/-! ### Events of the same content -/

namespace Event

/-- The keys that an event may have. All others are dropped. -/
def fieldNames : List String := ["v", "type", "i", "meta"]

/-- What counts of the value under a key: of details, that they are such data. -/
def essentialPart (name : String) (v : Value) : Value := if name = "meta" then v.asData else v

def essential? : Value × Value → Option (Value × Value)
  | (.str name, v) =>
    if name ∈ fieldNames then some (.str name, essentialPart name v) else none
  | _ => none

/-- An event without its unknown keys and with lists for all tuples in its details. -/
def essence : Value → Value
  | .dict entries => .dict (entries.filterMap essential?)
  | other => other

/-- Events that differ in unknown keys, in the order of keys and in tuples instead of lists inside
of their details, and in nothing else. -/
def SameContent (given other : Value) : Prop := (essence given).Reordered (essence other)

theorem of_essential? {entry part : Value × Value} (h : essential? entry = some part) :
    part.1 = entry.1 ∧ ∃ name, part.2 = essentialPart name entry.2 := by
  unfold essential? at h
  split at h
  · split at h
    · cases h
      exact ⟨rfl, _, rfl⟩
    · cases h
  · cases h

theorem lookUp?_essence {name : String} (hname : name ∈ fieldNames)
    (entries : List (Value × Value)) :
    Value.lookUp? (.str name) (entries.filterMap essential?) =
      (Value.lookUp? (.str name) entries).map (essentialPart name) := by
  induction entries with
  | nil => rfl
  | cons entry rest ih =>
    obtain ⟨key, v⟩ := entry
    by_cases hkey : key = .str name
    · subst hkey
      have hpart : essential? (.str name, v) = some (.str name, essentialPart name v) :=
        if_pos hname
      rw [List.filterMap_cons_some hpart, Value.lookUp?_cons_self, Value.lookUp?_cons_self]
      rfl
    · rw [Value.lookUp?_cons_of_ne hkey, ← ih, List.filterMap_cons]
      split
      · rfl
      · next part hpart =>
        have hne : part.1 ≠ .str name := (of_essential? hpart).1.symm ▸ hkey
        exact Value.lookUp?_cons_of_ne hne part.2 _

theorem kind_essence (given : Value) : (essence given).kind = given.kind := by
  cases given <;> rfl

theorem sublist_keys_essence (entries : List (Value × Value)) :
    ((entries.filterMap essential?).map (·.1)).Sublist (entries.map (·.1)) := by
  induction entries with
  | nil => exact .slnil
  | cons entry rest ih =>
    rw [List.filterMap_cons]
    split
    · exact ih.cons entry.1
    · next part hpart =>
      rw [List.map_cons, List.map_cons, (of_essential? hpart).1]
      exact ih.cons_cons entry.1

theorem textKeyed_essence {given : Value} (h : given.TextKeyed) : (essence given).TextKeyed := by
  cases given with
  | dict entries =>
    obtain ⟨htexts, hkeys, hvalues⟩ := Value.textKeyed_dict.mp h
    have hsublist := sublist_keys_essence entries
    refine Value.textKeyed_dict.mpr ⟨fun key hkey => htexts key (hsublist.subset hkey),
      hkeys.sublist hsublist, fun part hpart => ?_⟩
    obtain ⟨entry, hentry, hsome⟩ := List.mem_filterMap.mp hpart
    obtain ⟨name, hvalue⟩ := (of_essential? hsome).2
    rw [hvalue, essentialPart]
    split
    · exact (hvalues entry hentry).asData
    · exact hvalues entry hentry
  | _ => exact h

/-- What is found under a field in one of two events of the same content is found in the other one,
but for the order of keys, and but for tuples in details. -/
theorem SameContent.rel {xs ys : List (Value × Value)} (h : SameContent (.dict xs) (.dict ys))
    (hxs : Value.TextKeyed (.dict xs)) (name : String) (hname : name ∈ fieldNames) :
    Option.Rel (fun v w => (essentialPart name v).Reordered (essentialPart name w))
      (Value.lookUp? (.str name) xs) (Value.lookUp? (.str name) ys) := by
  have hrel := Value.Reordered.lookUp? h (textKeyed_essence hxs) name
  simp only [essence, Value.entriesOf, lookUp?_essence hname] at hrel
  cases hx : Value.lookUp? (.str name) xs <;> cases hy : Value.lookUp? (.str name) ys <;>
    rw [hx, hy] at hrel <;> cases hrel
  · exact .none
  · next hparts => exact .some hparts

end Event

/-! ### Errors without what they show -/

/-- The same error with nothing in place of the value that it shows. -/
def EventError.unshown : EventError → EventError
  | .notMapping _ => .notMapping .null
  | .version _ => .version .null
  | .type _ => .type .null
  | .notIterable _ => .notIterable .null
  | other => other

def TraceError.unshown : TraceError → TraceError
  | .event error => .event error.unshown
  | .unwritable error => .unwritable error

namespace Event

variable {xs ys : List (Value × Value)}

theorem beq_int_of_isContainer {v : Value} (h : v.isContainer = true) (n : Int) :
    (v == .int n) = false := by
  cases v with
  | seq form items | dict entries => simp [BEq.beq, Value.looselyEqual, Value.place?]
  | _ => cases h

theorem readVersion_congr
    (h : Option.Rel Value.Reordered (Value.lookUp? (.str "v") xs) (Value.lookUp? (.str "v") ys)) :
    (readVersion xs).mapError EventError.unshown = (readVersion ys).mapError .unshown := by
  have hget := Value.Reordered.rel_getD h (.int 1)
  rcases hget.eq_or_isContainer with hsame | ⟨hfirst, hsecond⟩
  · simp only [readVersion, hsame]
  · simp only [readVersion, beq_int_of_isContainer hfirst, beq_int_of_isContainer hsecond]
    rfl

/-- What holds others is no type, whether it can be looked up among the types or not. -/
theorem readType_of_isContainer {given : Value}
    (hgiven : (Value.lookUp? (.str "type") xs).getD .null = given)
    (h : given.isContainer = true) :
    readType xs = .error (match given.unhashable? with
      | some typeName => .unhashableType ⟨typeName⟩
      | none => .type given) := by
  simp only [readType, hgiven]
  cases given.unhashable? with
  | some typeName => rfl
  | none =>
    cases given with
    | seq form items | dict entries => rfl
    | _ => cases h

theorem readType_congr
    (h : Option.Rel Value.Reordered (Value.lookUp? (.str "type") xs)
      (Value.lookUp? (.str "type") ys)) :
    (readType xs).mapError EventError.unshown = (readType ys).mapError .unshown := by
  have hget := Value.Reordered.rel_getD h .null
  rcases hget.eq_or_isContainer with hsame | ⟨hfirst, hsecond⟩
  · simp only [readType, hsame]
  · rw [readType_of_isContainer rfl hfirst, readType_of_isContainer rfl hsecond,
      hget.unhashable?_eq]
    split <;> rfl

theorem readIndex_congr
    (h : Option.Rel Value.Reordered (Value.lookUp? (.str "i") xs) (Value.lookUp? (.str "i") ys)) :
    readIndex xs = readIndex ys := by
  unfold readIndex
  generalize Value.lookUp? (.str "i") xs = found at h
  generalize Value.lookUp? (.str "i") ys = found' at h
  cases h with
  | none => rfl
  | @some v w h =>
    rcases h.eq_or_isContainer with rfl | ⟨hfirst, hsecond⟩
    · rfl
    · cases v <;> cases hfirst <;> cases w <;> cases hsecond <;> rfl

/-- The details of an event in canonical form. -/
def settleDetails (entries : List (Value × Value)) :
    Except EventError (Option (Entries String Value)) := do
  match ← readDetails entries with
  | none => return none
  | some details => return some (← sortDetails details)

theorem ofValue_dict (entries : List (Value × Value)) :
    ofValue (.dict entries) = do
      let version ← readVersion entries
      let type ← readType entries
      let index ← readIndex entries
      return ⟨version, type, index, ← settleDetails entries⟩ := by
  rw [ofValue, settleDetails]
  cases readVersion entries with
  | error e => rfl
  | ok version =>
    cases readType entries with
    | error e => rfl
    | ok type =>
      cases readIndex entries with
      | error e => rfl
      | ok index =>
        rcases readDetails entries with e | _ | details
        · rfl
        · rfl
        · simp only [bind, Except.bind]
          cases sortDetails details <;> rfl

theorem settleDetails_congr
    (h : Option.Rel (fun v w => v.asData.Reordered w.asData) (Value.lookUp? (.str "meta") xs)
      (Value.lookUp? (.str "meta") ys))
    (htexts : ∀ v, Value.lookUp? (.str "meta") xs = some v → v.TextKeyed) :
    settleDetails xs = settleDetails ys := by
  unfold settleDetails readDetails
  generalize Value.lookUp? (.str "meta") xs = found at h htexts
  generalize Value.lookUp? (.str "meta") ys = found' at h
  cases h with
  | none => rfl
  | @some v w h =>
    have hv := htexts v rfl
    have hkind : v.kind = w.kind := by
      rw [← Value.kind_asData v, h.kind_eq, Value.kind_asData]
    have hsame : Value.deeplySorted v = Value.deeplySorted w := by
      rw [← Value.deeplySorted_asData v, (h.deeplySorted_eq hv.asData).2,
        Value.deeplySorted_asData]
    cases v with
    | null =>
      cases w with
      | null => rfl
      | _ => cases hkind
    | dict details =>
      cases w with
      | dict others =>
        obtain ⟨_, hsorted, -⟩ := hv.exists_canonical
        obtain ⟨settled, -, rfl⟩ := exists_of_map_eq_ok hsorted
        have hfirst := sortDetails_eq_ok_iff.mpr hsorted
        have hsecond := sortDetails_eq_ok_iff.mpr (hsame.symm.trans hsorted)
        simp only [bind, Except.bind, hfirst, hsecond]
      | _ => cases hkind
    | _ =>
      cases w with
      | null | dict others => cases hkind
      | _ => rfl

/-- Events of the same content are read as the same event, or refused for the same reason. -/
theorem ofValue_congr {given other : Value} (h : SameContent given other)
    (htexts : given.TextKeyed) :
    (ofValue given).mapError EventError.unshown = (ofValue other).mapError .unshown := by
  have hkind : given.kind = other.kind := by
    rw [← kind_essence given, Value.Reordered.kind_eq h, kind_essence]
  cases given with
  | dict xs =>
    cases other with
    | dict ys =>
      have hversion := readVersion_congr (h.rel htexts "v" (by decide))
      have htype := readType_congr (h.rel htexts "type" (by decide))
      have hindex := readIndex_congr (h.rel htexts "i" (by decide))
      have hdetails := settleDetails_congr (h.rel htexts "meta" (by decide))
        fun v hv => by
          obtain ⟨key, hmem⟩ := Value.mem_of_lookUp? hv
          exact (Value.textKeyed_dict.mp htexts).2.2 _ hmem
      simp only [ofValue_dict, ← mapError_bind, hversion, htype, hindex, hdetails]
    | _ => cases hkind
  | _ =>
    cases other with
    | dict ys => cases hkind
    | _ => rfl

theorem mapM_ofValue_congr {given others : List Value} (htexts : ∀ v ∈ given, v.TextKeyed)
    (h : List.Forall₂ SameContent given others) :
    (given.mapM ofValue).mapError EventError.unshown =
      (others.mapM ofValue).mapError .unshown := by
  induction h with
  | nil => rfl
  | @cons v w given others hfirst _ ih =>
    obtain ⟨hv, hrest⟩ := List.forall_mem_cons.mp htexts
    simp only [List.mapM_cons, ← mapError_bind, ofValue_congr hfirst hv, ih hrest]

theorem traceOfValue_congr {given others : List Value} (htexts : ∀ v ∈ given, v.TextKeyed)
    (h : List.Forall₂ SameContent given others) (form form' : Form) :
    (traceOfValue (.seq form given)).mapError EventError.unshown =
      (traceOfValue (.seq form' others)).mapError .unshown := by
  change (ofValues given).mapError EventError.unshown = (ofValues others).mapError .unshown
  simp only [ofValues, ← mapError_bind, mapM_ofValue_congr htexts h]

/-- The text of a trace depends on nothing but the content of its events: those of the same content
have the same text, or they are refused for the same reason. -/
theorem traceText_congr {given others : List Value} (htexts : ∀ v ∈ given, v.TextKeyed)
    (h : List.Forall₂ SameContent given others) (form form' : Form) :
    (∃ text, traceText (.seq form given) = .ok text ∧ traceText (.seq form' others) = .ok text) ∨
      ∃ error error', traceText (.seq form given) = .error error ∧
        traceText (.seq form' others) = .error error' ∧ error.unshown = error'.unshown := by
  have hread := traceOfValue_congr htexts h form form'
  cases hfirst : traceOfValue (.seq form given) with
  | error e =>
    cases hsecond : traceOfValue (.seq form' others) with
    | error e' =>
      rw [hfirst, hsecond] at hread
      refine .inr ⟨.event e, .event e', ?_, ?_, ?_⟩
      · rw [traceText, traceLines, hfirst]
        rfl
      · rw [traceText, traceLines, hsecond]
        rfl
      · exact congrArg TraceError.event (Except.error.inj hread)
    | ok events =>
      rw [hfirst, hsecond] at hread
      cases hread
  | ok events =>
    have hsecond : traceOfValue (.seq form' others) = .ok events := by
      rw [← mapError_eq_ok EventError.unshown, ← hread, hfirst]
      rfl
    have hsame : traceText (.seq form given) = traceText (.seq form' others) := by
      simp only [traceText, traceLines, hfirst, hsecond]
    rw [← hsame]
    cases traceText (.seq form given) with
    | error e => exact .inr ⟨e, e, rfl, rfl, rfl⟩
    | ok text => exact .inl ⟨text, rfl, rfl⟩

/-- The keys of an event and of a mapping in its details the other way round, an unknown key, and a
list in place of a tuple. -/
theorem traceText_congr_turned :
    ∃ text, traceText (.list [.record [("type", .str "match.end"), ("i", .int 0),
        ("meta", .record [("a", .record [("x", .tuple [.int 1]), ("y", .null)])])]]) = .ok text ∧
      traceText (.list [.record [("meta", .record [("a", .record [("y", .null),
        ("x", .list [.int 1])])]), ("i", .int 0), ("extra", .bool true),
          ("type", .str "match.end")]]) = .ok text := by
  let inner : Entries String Value := [("x", .tuple [.int 1]), ("y", .null)]
  let details : Entries String Value := [("a", .record inner)]
  let given : Entries String Value :=
    [("type", .str "match.end"), ("i", .int 0), ("meta", .record details)]
  let turned : Entries String Value := [("meta", .record [("a", .record [("y", .null),
        ("x", .list [.int 1])])]), ("i", .int 0), ("extra", .bool true), ("type", .str "match.end")]
  have hinner : Value.TextKeyed (.record inner) := .record inner (by decide)
    (by simp [inner, Value.TextKeyed.leaf .null rfl, Value.tuple, Value.TextKeyed.seq,
      Value.TextKeyed.leaf (.int 1) rfl])
  have hdetails : Value.TextKeyed (.record details) :=
    .record details (by decide) (List.forall_mem_singleton.mpr hinner)
  have hgiven : Value.TextKeyed (.record given) := .record given (by decide)
    (by simp [given, hdetails, Value.TextKeyed.leaf (.int 0) rfl,
      Value.TextKeyed.leaf (.str _) rfl])
  have hsame : SameContent (.record given) (.record turned) := by
    have hturned : Value.Reordered (.record [("x", .list [.int 1]), ("y", .null)])
        (.record [("y", .null), ("x", .list [.int 1])]) := .entries (.swap _ _ _)
    have hvalue := hturned.value (.str "a") [] []
    have hmeta := hvalue.value (.str "meta")
      [(.str "type", .str "match.end"), (.str "i", .int 0)] []
    exact hmeta.trans (.entries (List.reverse_perm _).symm)
  have hread : ofValue (.record given) = .ok ⟨.int 1, .matchEnd, 0,
      some [("a", .record [("x", .list [.int 1]), ("y", .null)])]⟩ :=
    ofValue_record .matchEnd 0 rfl
  have htrace := traceOfValue_singleton .list hread rfl
  have hok : ∃ text, traceText (.list [.record given]) = .ok text :=
    ⟨_, by
      change traceText (.seq .list _) = _
      simp only [traceText, traceLines, htrace]
      rfl⟩
  obtain ⟨text, htext⟩ := hok
  rcases traceText_congr (List.forall_mem_singleton.mpr hgiven) (.cons hsame .nil) .list .list with
    h | ⟨error, error', herror, -, -⟩
  · exact h
  · rw [show traceText (.seq .list [.record given]) = .ok text from htext] at herror
    cases herror

end Event

end Motif
