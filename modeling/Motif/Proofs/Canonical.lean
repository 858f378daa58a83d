import Mathlib.Data.List.Forall2
import Motif.Proofs.Arrangement
import Motif.Proofs.Conversion
import Motif.Proofs.Equivalence
import Motif.Proofs.Spelling
import Motif.Proofs.Watching

/-!
What canonical form is, and what comes to it. Canonical details have text for keys, in ascending
order, on every level. Keys are sorted before they are written as text, so this is what comes of
mappings whose keys are text already. Of other keys the texts may stand in another order, as those
of 9 and 10 do; then a second turn still changes something, and a third one does not. Versions are
kept as they are given, so one that equals 1 without being 1 stays what it is.
-/

namespace Motif

/-! ### Results of lists of computations -/

section

variable {ε α β : Type} {f : α → Except ε β}

theorem exists_mapM_eq_ok {holds : β → Prop} {xs : List α}
    (h : ∀ x ∈ xs, ∃ y, f x = .ok y ∧ holds y) :
    ∃ ys, xs.mapM f = .ok ys ∧ ∀ y ∈ ys, holds y := by
  induction xs with
  | nil => exact ⟨[], rfl, List.forall_mem_nil _⟩
  | cons x xs ih =>
    obtain ⟨⟨y, hy, hholds⟩, hrest⟩ := List.forall_mem_cons.mp h
    obtain ⟨ys, hys, hall⟩ := ih hrest
    refine ⟨y :: ys, ?_, List.forall_mem_cons.mpr ⟨hholds, hall⟩⟩
    rw [List.mapM_cons, hy, hys]
    rfl

theorem mapM_eq_ok_iff {xs : List α} {ys : List β} :
    xs.mapM f = .ok ys ↔ List.Forall₂ (fun x y => f x = .ok y) xs ys := by
  constructor
  · intro h
    induction xs generalizing ys with
    | nil =>
      cases h
      exact .nil
    | cons x xs ih =>
      rw [List.mapM_cons] at h
      obtain ⟨first, hfirst, h⟩ := exists_of_bind_eq_ok h
      obtain ⟨rest, hrest, h⟩ := exists_of_bind_eq_ok h
      cases h
      exact .cons hfirst (ih hrest)
  · intro h
    induction h with
    | nil => rfl
    | cons hfirst _ ih =>
      rw [List.mapM_cons, hfirst, ih]
      rfl

theorem exists_of_mem_mapM {xs : List α} {ys : List β} (h : xs.mapM f = .ok ys) {y : β}
    (hy : y ∈ ys) : ∃ x ∈ xs, f x = .ok y := by
  have hall := mapM_eq_ok_iff.mp h
  clear h
  induction hall with
  | nil => cases hy
  | @cons x first xs ys hfirst _ ih =>
    rcases List.mem_cons.mp hy with rfl | hy
    · exact ⟨x, List.mem_cons_self, hfirst⟩
    · obtain ⟨x', hx', hvalue⟩ := ih hy
      exact ⟨x', List.mem_cons_of_mem x hx', hvalue⟩

/-- A computation leaves a list as it is just if it leaves each element as it is. -/
theorem mapM_eq_ok_self_iff {f : α → Except ε α} {xs : List α} :
    xs.mapM f = .ok xs ↔ ∀ x ∈ xs, f x = .ok x :=
  mapM_eq_ok_iff.trans List.forall₂_same

end

/-! ### Ascending keys -/

namespace Entries

variable {β γ : Type} {entries others : Entries String β}

/-- The keys ascend, so that none is there twice. -/
def Ascending (entries : Entries String β) : Prop := entries.keys.Pairwise (· < ·)

theorem Ascending.nodup (h : entries.Ascending) : entries.keys.Nodup :=
  List.Pairwise.imp (fun {a b} hless => by rintro rfl; exact String.lt_irrefl a hless) h

theorem perm_place (entry : String × β) (entries : Entries String β) :
    (place entry entries).Perm (entry :: entries) := by
  induction entries with
  | nil => exact .refl _
  | cons other rest ih =>
    rw [place]
    split
    · exact .refl _
    · exact (ih.cons other).trans (.swap entry other rest)

theorem ascending_place {entry : String × β} (h : entries.Ascending)
    (hnew : entry.1 ∉ entries.keys) : (place entry entries).Ascending := by
  induction entries with
  | nil => exact List.pairwise_singleton _ _
  | cons other rest ih =>
    obtain ⟨hother, hrest⟩ := List.pairwise_cons.mp h
    obtain ⟨hne, hnew⟩ := not_or.mp (List.mem_cons.not.mp hnew)
    rw [place]
    split
    · next hless =>
      exact List.pairwise_cons.mpr ⟨List.forall_mem_cons.mpr
        ⟨hless, fun key hkey => String.lt_trans hless (hother key hkey)⟩, h⟩
    · next hless =>
      have hgreater : other.1 < entry.1 :=
        Std.not_le.mp fun hle => hne (String.le_antisymm hle (String.not_lt.mp hless))
      refine List.pairwise_cons.mpr ⟨fun key hkey => ?_, ih hrest hnew⟩
      have hmem := ((perm_place entry rest).map (·.1)).mem_iff.mp hkey
      rcases List.mem_cons.mp hmem with rfl | hkey
      · exact hgreater
      · exact hother key hkey

theorem perm_append_place (entries : Entries String β) (entry : String × β)
    (later : Entries String β) :
    (entries ++ entry :: later).Perm (place entry entries ++ later) :=
  List.perm_middle.trans ((perm_place entry entries).symm.append_right later)

theorem perm_foldl_place (entries later : Entries String β) :
    (later.foldl (fun acc entry => place entry acc) entries).Perm (entries ++ later) := by
  induction later generalizing entries with
  | nil => rw [List.append_nil, List.foldl_nil]
  | cons entry rest ih =>
    exact (ih (place entry entries)).trans (perm_append_place entries entry rest).symm

/-- Sorting loses no entry and adds none. -/
theorem perm_sorted (entries : Entries String β) : entries.sorted.Perm entries :=
  perm_foldl_place [] entries

theorem keys_perm (h : entries.Perm others) : entries.keys.Perm others.keys :=
  h.map Prod.fst

theorem ascending_foldl_place {later : Entries String β} (h : entries.Ascending)
    (hnodup : (entries ++ later).keys.Nodup) :
    Ascending (later.foldl (fun acc entry => place entry acc) entries) := by
  induction later generalizing entries with
  | nil => exact h
  | cons entry rest ih =>
    have hmoved := keys_perm (perm_append_place entries entry rest)
    have hnew : entry.1 ∉ entries.keys := fun hmem => by
      have hfirst := (keys_perm List.perm_middle).nodup_iff.mp hnodup
      refine (List.nodup_cons.mp hfirst).1 ?_
      rw [List.map_append]
      exact List.mem_append_left _ hmem
    exact ih (ascending_place h hnew) (hmoved.nodup_iff.mp hnodup)

theorem ascending_sorted (hnodup : entries.keys.Nodup) : entries.sorted.Ascending :=
  ascending_foldl_place .nil hnodup

/-- There is one way to put entries into ascending order. -/
theorem Ascending.eq_of_perm (h : entries.Ascending) (hothers : others.Ascending)
    (hperm : entries.Perm others) : entries = others := by
  refine hperm.eq_of_pairwise ?_ (List.pairwise_map.mp h) (List.pairwise_map.mp hothers)
  exact fun a b _ _ hless hgreater => absurd hgreater (String.lt_asymm hless)

theorem sorted_of_ascending (h : entries.Ascending) : entries.sorted = entries :=
  (ascending_sorted h.nodup).eq_of_perm h (perm_sorted entries)

/-- In which order entries are given makes no difference once they are sorted. -/
theorem sorted_eq_of_perm (hnodup : entries.keys.Nodup) (hperm : entries.Perm others) :
    entries.sorted = others.sorted := by
  refine (ascending_sorted hnodup).eq_of_perm ?_ ?_
  · exact ascending_sorted ((keys_perm hperm).nodup_iff.mp hnodup)
  · exact (perm_sorted entries).trans (hperm.trans (perm_sorted others).symm)

theorem keys_mapValues (f : β → γ) (entries : Entries String β) :
    (entries.mapValues f).keys = entries.keys := by
  simp [mapValues, keys]

theorem sorted_mapValues (f : β → γ) (hnodup : entries.keys.Nodup) :
    (entries.mapValues f).sorted = entries.sorted.mapValues f := by
  have hkeys : (entries.mapValues f).keys.Nodup := by rwa [keys_mapValues]
  refine (ascending_sorted hkeys).eq_of_perm ?_ ?_
  · rw [Ascending, keys_mapValues]
    exact ascending_sorted hnodup
  · exact (perm_sorted _).trans ((perm_sorted entries).map _).symm

theorem keys_of_mapM {ε : Type} {f : β → Except ε γ} {results : Entries String γ}
    (h : (entries.mapM fun entry => (f entry.2).map fun v => (entry.1, v)) = .ok results) :
    results.keys = entries.keys := by
  have hkeys : List.Forall₂ (fun entry result => entry.1 = result.1) entries results :=
    (mapM_eq_ok_iff.mp h).imp fun entry result hresult => by
      obtain ⟨v, -, rfl⟩ := exists_of_map_eq_ok hresult
      rfl
  have hmapped : List.Forall₂ (· = ·) entries.keys (Entries.keys results) :=
    List.forall₂_map_left_iff.mpr (List.forall₂_map_right_iff.mpr hkeys)
  rw [List.forall₂_eq_eq_eq] at hmapped
  exact hmapped.symm

end Entries

/-! ### Values in canonical form -/

namespace Value

/-- All mappings have texts for keys, and no key twice. -/
inductive TextKeyed : Value → Prop
  | leaf (v : Value) (h : v.isContainer = false) : TextKeyed v
  | seq (form : Form) (items : List Value) (h : ∀ v ∈ items, TextKeyed v) :
    TextKeyed (.seq form items)
  | record (entries : Entries String Value) (hkeys : entries.keys.Nodup)
    (h : ∀ entry ∈ entries, TextKeyed entry.2) : TextKeyed (.record entries)

/-- All mappings have texts for keys, in ascending order, and all sequences are lists. -/
inductive Canonical : Value → Prop
  | leaf (v : Value) (h : v.isContainer = false) : Canonical v
  | list (items : List Value) (h : ∀ v ∈ items, Canonical v) : Canonical (.seq .list items)
  | record (entries : Entries String Value) (hkeys : entries.Ascending)
    (h : ∀ entry ∈ entries, Canonical entry.2) : Canonical (.record entries)

theorem deeplySorted_leaf {v : Value} (h : v.isContainer = false) : deeplySorted v = .ok v := by
  cases v with
  | seq form items | dict entries => cases h
  | _ => rfl

theorem allDeeplySorted_eq_map (items : List Value) :
    allDeeplySorted items = items.map deeplySorted := by
  induction items with
  | nil => rfl
  | cons v rest ih => rw [allDeeplySorted, ih, List.map_cons]

theorem deeplySorted_seq (form : Form) (items : List Value) :
    deeplySorted (.seq form items) = (items.mapM deeplySorted).map Value.list := by
  rw [deeplySorted, inOrder, allDeeplySorted_eq_map, List.mapM_map]
  rfl

theorem entriesDeeplySorted_eq_map (entries : List (Value × Value)) :
    entriesDeeplySorted entries = entries.map fun entry => (entry.1, deeplySorted entry.2) := by
  induction entries with
  | nil => rfl
  | cons entry rest ih => rw [entriesDeeplySorted, ih, List.map_cons]

theorem deeplySorted_dict (entries : List (Value × Value)) :
    deeplySorted (.dict entries) = (sortedEntries
      (entries.map fun entry => (entry.1, deeplySorted entry.2))).map Value.record := by
  rw [deeplySorted, entriesDeeplySorted_eq_map]

theorem entriesAsData_eq_map (entries : List (Value × Value)) :
    entriesAsData entries = entries.map fun entry => (entry.1, entry.2.asData) := by
  induction entries with
  | nil => rfl
  | cons entry rest ih => rw [entriesAsData, ih, List.map_cons]

/-- Sorting makes lists of tuples, so it does not matter whether they are lists already. -/
theorem deeplySorted_asData (v : Value) : deeplySorted v.asData = deeplySorted v := by
  induction v using Value.induction with
  | seq form items ih =>
    rw [asData_seq, deeplySorted, deeplySorted, allDeeplySorted_eq_map, allDeeplySorted_eq_map,
      List.map_map]
    exact congrArg (fun results => (inOrder results).map Value.list) (List.map_congr_left ih)
  | dict entries ih =>
    rw [asData, entriesAsData_eq_map, deeplySorted_dict, deeplySorted_dict, List.map_map]
    refine congrArg (fun entries => (sortedEntries entries).map Value.record) ?_
    exact List.map_congr_left fun entry hentry => congrArg (entry.1, ·) (ih entry hentry).2
  | _ => rfl

theorem textKeyed?_map {β : Type} (entries : Entries String β) :
    textKeyed? (entries.map fun entry => (.str entry.1, entry.2)) = some entries := by
  induction entries with
  | nil => rfl
  | cons entry rest ih => rw [List.map_cons, textKeyed?, ih, Option.map_some]

/-- Entries under texts are sorted by the texts; their values are asked for after that. -/
theorem sortedEntries_of_texts (entries : Entries String (Except Incomparable Value)) :
    sortedEntries (entries.map fun entry => (.str entry.1, entry.2)) = do
      let values ← entries.sorted.mapM fun entry => entry.2.map fun v => (entry.1, v)
      return Entries.ofPairs values := by
  simp only [sortedEntries, textKeyed?_map, bind, Except.bind, List.mapM_map]
  rfl

/-- Entries under different texts are sorted by the texts, and each value on its own. -/
theorem sortedEntries_record {entries : Entries String Value} (hkeys : entries.keys.Nodup) :
    sortedEntries (entriesDeeplySorted (entries.map fun entry => (.str entry.1, entry.2))) =
      entries.sorted.mapM fun entry => (deeplySorted entry.2).map fun v => (entry.1, v) := by
  have hresults : entriesDeeplySorted (entries.map fun entry => (.str entry.1, entry.2)) =
      (entries.mapValues deeplySorted).map fun entry => (.str entry.1, entry.2) := by
    simp [entriesDeeplySorted_eq_map, Entries.mapValues]
  rw [hresults, sortedEntries_of_texts, Entries.sorted_mapValues _ hkeys, Entries.mapValues,
    List.mapM_map]
  change (entries.sorted.mapM fun entry => (deeplySorted entry.2).map fun v => (entry.1, v)) >>=
    _ = _
  cases hvalues : entries.sorted.mapM fun entry =>
    (deeplySorted entry.2).map fun v => (entry.1, v) with
  | error e => rfl
  | ok values =>
    have hnodup : (Entries.keys values).Nodup := by
      rw [Entries.keys_of_mapM hvalues]
      exact (Entries.ascending_sorted hkeys).nodup
    exact congrArg Except.ok (Entries.ofPairs_of_nodup hnodup)

theorem deeplySorted_record {entries : Entries String Value} (hkeys : entries.keys.Nodup) :
    deeplySorted (.record entries) =
      (entries.sorted.mapM fun entry => (deeplySorted entry.2).map fun v => (entry.1, v)).map
        Value.record := by
  rw [← sortedEntries_record hkeys]
  rfl

/-- Values under texts can be sorted. -/
theorem TextKeyed.exists_canonical {v : Value} (h : TextKeyed v) :
    ∃ w, deeplySorted v = .ok w ∧ Canonical w := by
  induction h with
  | leaf v h => exact ⟨v, deeplySorted_leaf h, .leaf v h⟩
  | seq form items _ ih =>
    obtain ⟨sorted, hsorted, hcanonical⟩ := exists_mapM_eq_ok ih
    exact ⟨.seq .list sorted, by rw [deeplySorted_seq, hsorted]; rfl, .list sorted hcanonical⟩
  | record entries hkeys _ ih =>
    have hvalues : ∀ entry ∈ entries.sorted, ∃ result : String × Value,
        (deeplySorted entry.2).map (fun v => (entry.1, v)) = .ok result ∧ Canonical result.2 := by
      intro entry hentry
      obtain ⟨w, hw, hcanonical⟩ := ih entry ((Entries.perm_sorted entries).mem_iff.mp hentry)
      exact ⟨(entry.1, w), by rw [hw]; rfl, hcanonical⟩
    obtain ⟨sorted, hsorted, hcanonical⟩ := exists_mapM_eq_ok hvalues
    refine ⟨.record sorted, by rw [deeplySorted_record hkeys, hsorted]; rfl, ?_⟩
    refine .record sorted ?_ hcanonical
    rw [Entries.Ascending, Entries.keys_of_mapM hsorted]
    exact Entries.ascending_sorted hkeys

theorem Canonical.deeplySorted_eq {v : Value} (h : Canonical v) : deeplySorted v = .ok v := by
  induction h with
  | leaf v h => exact deeplySorted_leaf h
  | list items _ ih =>
    rw [deeplySorted_seq, mapM_eq_ok_self_iff.mpr ih]
    rfl
  | record entries hkeys _ ih =>
    have hvalues : ∀ entry ∈ entries,
        (deeplySorted entry.2).map (fun v => (entry.1, v)) = .ok entry :=
      fun entry hentry => by rw [ih entry hentry]; rfl
    rw [deeplySorted_record hkeys.nodup, Entries.sorted_of_ascending hkeys,
      mapM_eq_ok_self_iff.mpr hvalues]
    rfl

theorem eq_map_of_textKeyed? {β : Type} {entries : List (Value × β)} {texts : Entries String β}
    (h : textKeyed? entries = some texts) :
    entries = texts.map fun entry => (.str entry.1, entry.2) := by
  induction entries generalizing texts with
  | nil =>
    cases h
    rfl
  | cons entry rest ih =>
    obtain ⟨key, v⟩ := entry
    cases key with
    | str s =>
      obtain ⟨later, hlater, rfl⟩ := Option.map_eq_some_iff.mp h
      rw [List.map_cons, ← ih hlater]
    | _ => cases h

/-- Whatever the keys are, sorting arranges the entries in some way, and writes the keys as texts
only then. -/
theorem exists_arranged {entries : List (Value × Except Incomparable Value)}
    {sorted : Entries String Value} (h : sortedEntries entries = .ok sorted) :
    ∃ (arranged : List (Value × Except Incomparable Value)) (pairs : Entries String Value),
      arranged.Perm entries ∧
      arranged.mapM (fun entry => entry.2.map fun v => (entry.1.keyText, v)) = .ok pairs ∧
      sorted = Entries.ofPairs pairs := by
  unfold sortedEntries at h
  dsimp only at h
  split at h
  · next texts htexts =>
    obtain ⟨arranged, harranged, h⟩ := exists_of_bind_eq_ok h
    obtain ⟨pairs, hpairs, h⟩ := exists_of_bind_eq_ok h
    cases h
    cases harranged
    refine ⟨_, pairs, ?_, hpairs, rfl⟩
    rw [eq_map_of_textKeyed? htexts]
    exact (Entries.perm_sorted texts).map _
  · obtain ⟨arranged, harranged, h⟩ := exists_of_bind_eq_ok h
    obtain ⟨pairs, hpairs, h⟩ := exists_of_bind_eq_ok h
    cases h
    exact ⟨arranged, pairs, Sorting.perm_of_sort harranged, hpairs, rfl⟩

/-- What holds of all values that can be sorted holds of what is sorted under texts. -/
theorem forall_sortedEntries {entries : List (Value × Value)} {sorted : Entries String Value}
    {holds : Value → Prop}
    (hvalues : ∀ entry ∈ entries, ∀ v, deeplySorted entry.2 = .ok v → holds v)
    (h : sortedEntries (entriesDeeplySorted entries) = .ok sorted) :
    sorted.keys.Nodup ∧ ∀ entry ∈ sorted, holds entry.2 := by
  obtain ⟨arranged, pairs, hperm, hpairs, rfl⟩ := exists_arranged h
  have hnil : (Entries.keys ([] : Entries String Value)).Nodup := List.nodup_nil
  refine ⟨Entries.nodup_keys_overlay hnil pairs, Entries.forall_overlay (by simp) ?_⟩
  intro entry hentry
  obtain ⟨given, hgiven, hresult⟩ := exists_of_mem_mapM hpairs hentry
  have hmem := hperm.mem_iff.mp hgiven
  rw [entriesDeeplySorted_eq_map] at hmem
  obtain ⟨original, horiginal, rfl⟩ := List.mem_map.mp hmem
  obtain ⟨v, hvalue, rfl⟩ := exists_of_map_eq_ok hresult
  exact hvalues original horiginal v hvalue

/-- All keys of what was sorted are texts. -/
theorem textKeyed_of_deeplySorted {v w : Value} (h : deeplySorted v = .ok w) : TextKeyed w := by
  induction v using Value.induction generalizing w with
  | seq form items ih =>
    rw [deeplySorted_seq] at h
    obtain ⟨sorted, hitems, rfl⟩ := exists_of_map_eq_ok h
    refine .seq .list sorted fun w hw => ?_
    obtain ⟨v, hv, hvalue⟩ := exists_of_mem_mapM hitems hw
    exact ih v hv hvalue
  | dict entries ih =>
    rw [deeplySorted] at h
    obtain ⟨sorted, hsorted, rfl⟩ := exists_of_map_eq_ok h
    obtain ⟨hkeys, hvalues⟩ :=
      forall_sortedEntries (fun entry hentry v hv => (ih entry hentry).2 hv) hsorted
    exact .record sorted hkeys hvalues
  | _ =>
    cases h
    exact .leaf _ rfl

/-- Values in canonical form are just those that sorting leaves as they are. -/
theorem deeplySorted_eq_self_iff {v : Value} : deeplySorted v = .ok v ↔ Canonical v := by
  constructor
  · intro h
    obtain ⟨w, hw, hcanonical⟩ := (textKeyed_of_deeplySorted h).exists_canonical
    rw [h] at hw
    cases hw
    exact hcanonical
  · exact Canonical.deeplySorted_eq

end Value

/-! ### Events in canonical form -/

namespace Value

theorem record_injective {entries others : Entries String Value}
    (h : Value.record entries = .record others) : entries = others := by
  have hmap := Value.dict.inj h
  refine List.map_injective_iff.mpr (fun a b hab => ?_) hmap
  obtain ⟨hkey, hvalue⟩ := Prod.mk.inj hab
  exact Prod.ext (Value.str.inj hkey) hvalue

end Value

namespace Event

/-- The details of an event, if it has any, are in canonical form. -/
def Settled (e : Event) : Prop :=
  ∀ details, e.details = some details → (Value.record details).Canonical

theorem sortDetails_eq_ok_iff {given : List (Value × Value)} {details : Entries String Value} :
    sortDetails given = .ok details ↔
      Value.deeplySorted (.dict given) = .ok (.record details) := by
  rw [sortDetails, Value.deeplySorted]
  constructor
  · intro h
    split at h
    · next sorted hsorted =>
      cases h
      rw [hsorted]
      rfl
    · cases h
  · intro h
    obtain ⟨sorted, hsorted, hrecord⟩ := exists_of_map_eq_ok h
    rw [hsorted, Value.record_injective hrecord]

/-- The parts of an event, read one by one. -/
theorem exists_of_ofValue {entries : List (Value × Value)} {e : Event}
    (h : ofValue (.dict entries) = .ok e) :
    readVersion entries = .ok e.version ∧
      (readDetails entries = .ok none ∧ e.details = none ∨
        ∃ given details, readDetails entries = .ok (some given) ∧
          Value.deeplySorted (.dict given) = .ok (.record details) ∧ e.details = some details) := by
  obtain ⟨version, hversion, h⟩ := exists_of_bind_eq_ok h
  obtain ⟨type, -, h⟩ := exists_of_bind_eq_ok h
  obtain ⟨index, -, h⟩ := exists_of_bind_eq_ok h
  obtain ⟨given, hgiven, h⟩ := exists_of_bind_eq_ok h
  cases given with
  | none =>
    cases h
    exact ⟨hversion, .inl ⟨hgiven, rfl⟩⟩
  | some given =>
    obtain ⟨details, hdetails, h⟩ := exists_of_bind_eq_ok h
    cases h
    exact ⟨hversion, .inr ⟨given, details, hgiven, sortDetails_eq_ok_iff.mp hdetails, rfl⟩⟩

theorem beq_one_of_readVersion {entries : List (Value × Value)} {version : Value}
    (h : readVersion entries = .ok version) :
    version = (Value.lookUp? (.str "v") entries).getD (.int 1) ∧ (version == .int 1) = true := by
  simp only [readVersion] at h
  split at h
  · next hone =>
    cases h
    exact ⟨rfl, hone⟩
  · cases h

/-- The entries of an event, in their fixed order. -/
def fields (e : Event) : Entries String Value :=
  [("v", e.version), ("type", .str e.type.name), ("i", .int e.index)] ++
    match e.details with
    | none => []
    | some details => [("meta", .record details)]

theorem keys_fields (e : Event) :
    e.fields.keys = ["v", "type", "i"] ++ if e.details.isSome then ["meta"] else [] := by
  obtain ⟨version, type, index, _ | details⟩ := e <;> rfl

theorem readType_of_lookUp? {entries : List (Value × Value)} {type : EventType}
    (h : Value.lookUp? (.str "type") entries = some (.str type.name)) :
    readType entries = .ok type := by
  have hname : EventType.ofName? type.name = some type := by cases type <;> rfl
  rw [readType, h]
  simp only [Option.getD_some, Value.unhashable?, hname]

/-- Reading an event again sorts its details again and changes nothing else. -/
theorem ofValue_toValue {e : Event} (hversion : (e.version == .int 1) = true) :
    ofValue e.toValue =
      match e.details with
      | none => .ok e
      | some details =>
        (sortDetails (details.map fun entry => (.str entry.1, entry.2))).map fun sorted =>
          { e with details := some sorted } := by
  obtain ⟨version, type, index, details⟩ := e
  have hread : readVersion ((fields ⟨version, type, index, details⟩).map
      fun entry => (.str entry.1, entry.2)) = .ok version := by
    rw [readVersion, Value.lookUp?_record]
    exact if_pos hversion
  have htype : readType ((fields ⟨version, type, index, details⟩).map
      fun entry => (.str entry.1, entry.2)) = .ok type :=
    readType_of_lookUp? (Value.lookUp?_record _ _)
  have hindex : readIndex ((fields ⟨version, type, index, details⟩).map
      fun entry => (.str entry.1, entry.2)) = .ok index := by
    rw [readIndex, Value.lookUp?_record]
    rfl
  have hdetails : readDetails ((fields ⟨version, type, index, details⟩).map
      fun entry => (.str entry.1, entry.2)) =
        .ok (details.map fun given => given.map fun entry => (.str entry.1, entry.2)) := by
    rw [readDetails, Value.lookUp?_record]
    cases details <;> rfl
  change ofValue (.dict ((fields ⟨version, type, index, details⟩).map _)) = _
  simp only [ofValue, hread, htype, hindex, hdetails, bind, Except.bind, pure, Except.pure]
  cases details with
  | none => rfl
  | some details =>
    simp only [Option.map_some]
    cases sortDetails (details.map fun entry => (.str entry.1, entry.2)) <;> rfl

/-- An event is read back as it is just if its details are in canonical form. -/
theorem ofValue_toValue_eq_self_iff {e : Event} (hversion : (e.version == .int 1) = true) :
    ofValue e.toValue = .ok e ↔ e.Settled := by
  rw [ofValue_toValue hversion]
  cases hdetails : e.details with
  | none => simp [Settled, hdetails]
  | some details =>
    have hsame : e = { e with details := some details } := by rw [← hdetails]
    constructor
    · intro h details' hdetails'
      rw [hdetails] at hdetails'
      cases hdetails'
      obtain ⟨sorted, hsorted, heq⟩ := exists_of_map_eq_ok h
      rw [hsame] at heq
      cases Option.some.inj (congrArg Event.details heq)
      exact Value.deeplySorted_eq_self_iff.mp (sortDetails_eq_ok_iff.mp hsorted)
    · intro h
      have hsorted := Value.deeplySorted_eq_self_iff.mpr (h details hdetails)
      simp only [sortDetails_eq_ok_iff.mpr hsorted, Except.map, ← hdetails]

/-- A trace is accepted if all its events are, and bear their places. -/
theorem ofValues_eq_ok_iff {given : List Value} {events : List Event} :
    ofValues given = .ok events ↔
      given.mapM ofValue = .ok events ∧ events.map (·.index) = List.range events.length := by
  constructor
  · intro h
    obtain ⟨read, hread, h⟩ := exists_of_bind_eq_ok h
    split at h
    · next hindices =>
      cases h
      exact ⟨hread, hindices⟩
    · cases h
  · rintro ⟨hread, hindices⟩
    rw [ofValues, hread]
    exact if_pos hindices

theorem traceOfValue_singleton (form : Form) {given : Value} {e : Event}
    (h : ofValue given = .ok e) (hindex : e.index = 0) :
    traceOfValue (.seq form [given]) = .ok [e] :=
  ofValues_eq_ok_iff.mpr ⟨mapM_eq_ok_iff.mpr (.cons h .nil), congrArg ([·]) hindex⟩

theorem traceOfValue_toValue_iff (events : List Event) :
    traceOfValue (.list (events.map toValue)) = .ok events ↔
      (∀ e ∈ events, ofValue e.toValue = .ok e) ∧
        events.map (·.index) = List.range events.length := by
  change ofValues (events.map toValue) = _ ↔ _
  rw [ofValues_eq_ok_iff, List.mapM_map, ← mapM_eq_ok_self_iff]
  rfl

theorem lookUp?_of_readDetails {entries given : List (Value × Value)}
    (h : readDetails entries = .ok (some given)) :
    Value.lookUp? (.str "meta") entries = some (.dict given) := by
  unfold readDetails at h
  split at h
  · cases h
  · cases h
  · next details hdetails =>
    cases h
    exact hdetails
  · cases h

/-- A second turn is never refused, and there is nothing left to do for a third one. -/
theorem exists_settled {entries : List (Value × Value)} {e : Event}
    (h : ofValue (.dict entries) = .ok e) :
    ∃ e', ofValue e.toValue = .ok e' ∧ e'.Settled ∧ ofValue e'.toValue = .ok e' := by
  obtain ⟨hversion, hdetails⟩ := exists_of_ofValue h
  have hone := (beq_one_of_readVersion hversion).2
  rcases hdetails with ⟨-, hnone⟩ | ⟨given, details, -, hdetails, hsome⟩
  · have hsettled : e.Settled := fun details hsome => by
      rw [hnone] at hsome
      cases hsome
    have hsame := (ofValue_toValue_eq_self_iff hone).mpr hsettled
    exact ⟨e, hsame, hsettled, hsame⟩
  · obtain ⟨w, hw, hcanonical⟩ := (Value.textKeyed_of_deeplySorted hdetails).exists_canonical
    obtain ⟨sorted, -, rfl⟩ := exists_of_map_eq_ok hw
    let again : Event := { e with details := some sorted }
    have hsettled : again.Settled := fun details' hsome' => by
      cases hsome'
      exact hcanonical
    have honeAgain : (again.version == .int 1) = true := hone
    refine ⟨again, ?_, hsettled, (ofValue_toValue_eq_self_iff honeAgain).mpr hsettled⟩
    rw [ofValue_toValue hone]
    simp only [hsome, sortDetails_eq_ok_iff.mpr hw]
    rfl

/-- What comes of an accepted event. Its keys have a fixed order, and its details are in canonical
form if their keys were texts. Just then a second turn changes nothing, and a tracer that keeps the
event prints what it keeps; otherwise it takes the second turn to come to canonical form. -/
theorem ofValue_normal {entries : List (Value × Value)} {e : Event}
    (h : ofValue (.dict entries) = .ok e) :
    (e.toValue = .record e.fields ∧
      e.fields.keys = ["v", "type", "i"] ++ if e.details.isSome then ["meta"] else []) ∧
    (e.version = .int 1 ↔ ∀ v, Value.lookUp? (.str "v") entries = some v → v = .int 1) ∧
    ((∀ details, Value.lookUp? (.str "meta") entries = some (.dict details) →
      Value.TextKeyed (.dict details)) → e.Settled) ∧
    (ofValue e.toValue = .ok e ↔ e.Settled) ∧
    (∃ e', ofValue e.toValue = .ok e' ∧ e'.Settled ∧ ofValue e'.toValue = .ok e') ∧
    ∀ t : Tracer, traceOfValue t.toValue = .ok t.events → e.index = t.size →
      (traceOfValue (Tracer.toValue ⟨t.log.push e⟩) = .ok (t.events ++ [e]) ↔ e.Settled) := by
  obtain ⟨hversion, hdetails⟩ := exists_of_ofValue h
  obtain ⟨hgiven, hone⟩ := beq_one_of_readVersion hversion
  have hsettled := ofValue_toValue_eq_self_iff hone
  refine ⟨⟨rfl, e.keys_fields⟩, ?_, ?_, hsettled, exists_settled h, ?_⟩
  · rw [hgiven]
    cases Value.lookUp? (.str "v") entries <;> simp
  · intro htexts details hsome
    rcases hdetails with ⟨-, hnone⟩ | ⟨given, details', hread, hsorted, hsome'⟩
    · rw [hnone] at hsome
      cases hsome
    · obtain ⟨w, hw, hcanonical⟩ := (htexts given (lookUp?_of_readDetails hread)).exists_canonical
      rw [hsorted] at hw
      cases hw
      rw [hsome'] at hsome
      cases hsome
      exact hcanonical
  · intro t ht hindex
    obtain ⟨hread, hindices⟩ := (traceOfValue_toValue_iff t.events).mp ht
    have hpush : Tracer.toValue ⟨t.log.push e⟩ = .list ((t.events ++ [e]).map toValue) := by
      simp [Tracer.toValue, Tracer.events]
    have hnumbers : (t.events ++ [e]).map (·.index) = List.range (t.events ++ [e]).length := by
      have hsize : t.events.length = t.size := Array.length_toList
      rw [List.map_append, hindices, List.length_append, List.length_singleton, List.range_succ,
        List.map_singleton, hindex, hsize]
    rw [hpush, traceOfValue_toValue_iff, and_iff_left hnumbers, List.forall_mem_append,
      List.forall_mem_singleton, and_iff_right hread, hsettled]

/-- Texts at two levels: canonical form after one turn. -/
theorem ofValue_normal_texts :
    ∃ e, ofValue (.record [("meta", .record [("b", .record [("d", .int 1), ("c", .seq .tuple [])]),
        ("a", .null)]), ("i", .int 0), ("type", .str "match.end")]) = .ok e ∧
      e.version = .int 1 ∧ e.fields.keys = ["v", "type", "i", "meta"] ∧ e.Settled ∧
        ofValue e.toValue = .ok e := by
  have hone : (Value.int 1 == Value.int 1) = true := by decide +kernel
  let inner : Entries String Value := [("d", .int 1), ("c", .seq .tuple [])]
  let details : Entries String Value := [("b", .record inner), ("a", .null)]
  let given : Entries String Value :=
    [("meta", .record details), ("i", .int 0), ("type", .str "match.end")]
  have hversion : readVersion (given.map fun entry => (.str entry.1, entry.2)) = .ok (.int 1) := by
    rw [readVersion, Value.lookUp?_record]
    exact if_pos hone
  have hsorted : sortDetails (details.map fun entry => (.str entry.1, entry.2)) =
      .ok [("a", .null), ("b", .record [("c", .seq .list []), ("d", .int 1)])] := by
    simp only [details, List.map_cons, List.map_nil, sortDetails, Value.entriesDeeplySorted,
      Value.sortedEntries, Value.textKeyed?, Option.map_some, Entries.sorted, List.foldl_cons,
      List.foldl_nil, Entries.place, String.reduceLT, if_true]
    rfl
  have htype : readType (given.map fun entry => (.str entry.1, entry.2)) = .ok .matchEnd := rfl
  have hindex : readIndex (given.map fun entry => (.str entry.1, entry.2)) = .ok 0 := rfl
  have hread := ofValue_eq_ok hversion htype hindex rfl hsorted
  obtain ⟨⟨-, hkeys⟩, hgiven, htexts, hagain, -⟩ := ofValue_normal hread
  have hsettled := htexts fun details' hdetails' => by
    cases hdetails'
    have hinner : Value.TextKeyed (.record inner) :=
      .record inner (by decide)
        (by simp [inner, Value.TextKeyed.leaf (.int 1) rfl, Value.TextKeyed.seq])
    exact .record details (by decide)
      (by simp [details, hinner, Value.TextKeyed.leaf .null rfl])
  refine ⟨_, hread, hgiven.mpr ?_, hkeys, hsettled, hagain.mpr hsettled⟩
  intro v hv
  cases hv

/-- The keys 9 and 10 are in order as numbers and not as texts, and a version may be true. -/
theorem not_settled_nine_ten :
    ∃ e, ofValue (.record [("v", .bool true), ("type", .str "match.start"), ("i", .int 0),
        ("meta", .dict [(.int 10, .str "a"), (.int 9, .str "b")])]) = .ok e ∧
      e.version ≠ .int 1 ∧ ¬ e.Settled ∧ ofValue e.toValue ≠ .ok e := by
  have htrue : (Value.bool true == Value.int 1) = true := by decide +kernel
  have hbefore : Value.before (.int 9) (.int 10) = .ok true := by decide +kernel
  let given : Entries String Value := [("v", .bool true), ("type", .str "match.start"),
    ("i", .int 0), ("meta", .dict [(.int 10, .str "a"), (.int 9, .str "b")])]
  have hversion : readVersion (given.map fun entry => (.str entry.1, entry.2)) =
      .ok (.bool true) := by
    rw [readVersion, Value.lookUp?_record]
    exact if_pos htrue
  have hsorted : sortDetails [(.int 10, .str "a"), (.int 9, .str "b")] =
      .ok [("9", .str "b"), ("10", .str "a")] := by
    simp only [sortDetails, Value.sortedEntries, Value.entriesDeeplySorted, Value.textKeyed?,
      Sorting.sort, List.length_cons, List.length_nil, Sorting.sortFrom, Sorting.leadingRunOf,
      Sorting.leadingRun, hbefore]
    rfl
  let e : Event := ⟨.bool true, .matchStart, 0, some [("9", .str "b"), ("10", .str "a")]⟩
  have hunsettled : ¬ e.Settled := fun h => by
    have hsame := Value.deeplySorted_eq_self_iff.mpr (h _ rfl)
    have hturned : Value.deeplySorted (.record [("9", .str "b"), ("10", .str "a")]) =
      .ok (.record [("10", .str "a"), ("9", .str "b")]) := rfl
    have hentries := Value.record_injective (Except.ok.inj (hturned.symm.trans hsame))
    exact absurd (congrArg Entries.keys hentries) (by decide)
  have honeAgain : (e.version == .int 1) = true := htrue
  have hnotOne : Value.bool true ≠ .int 1 := fun h => by cases h
  refine ⟨e, ofValue_eq_ok hversion rfl rfl rfl hsorted, hnotOne, hunsettled, ?_⟩
  exact mt (ofValue_toValue_eq_self_iff honeAgain).mp hunsettled

end Event

end Motif
