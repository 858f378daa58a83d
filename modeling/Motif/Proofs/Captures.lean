import Mathlib.Data.List.Induction
import Motif.Search

/-!
Laws of captures that are laid over others. Later captures win the value of a
label and leave its place alone; labels that are new come after the old ones, in
their own order. So captures that are made one after the other can be collected
first and laid over what was there before in one go.
-/

namespace Motif

namespace Entries

variable {α β : Type} [BEq α]

/-- The keys of entries, in their order. -/
def keys (entries : Entries α β) : List α := entries.map (·.1)

theorem overlay_append (entries first later : Entries α β) :
    overlay entries (first ++ later) = overlay (overlay entries first) later :=
  List.foldl_append

theorem find?_append (key : α) (first later : Entries α β) :
    find? key (first ++ later) = (find? key first).or (find? key later) := by
  induction first with
  | nil => rfl
  | cons entry rest ih =>
    simp only [List.cons_append, find?]
    split
    · rfl
    · exact ih

variable [LawfulBEq α]

/-- The last value that is laid over a key is the one that is found. -/
theorem find?_overlay_reverse (key : α) (entries later : Entries α β) :
    find? key (overlay entries later) = (find? key later.reverse).or (find? key entries) := by
  induction later generalizing entries with
  | nil => rfl
  | cons entry rest ih =>
    rw [overlay_cons, ih, find?_put, List.reverse_cons, find?_append, Option.or_assoc]
    simp only [find?]
    split <;> rfl

/-- What is laid over others can be collected on its own first. -/
theorem find?_overlay (key : α) (entries later : Entries α β) :
    find? key (overlay entries later) =
      (find? key (overlay [] later)).or (find? key entries) := by
  rw [find?_overlay_reverse, find?_overlay_reverse key [], Option.or_assoc]
  rfl

theorem keys_put (key : α) (value : β) (entries : Entries α β) :
    keys (put key value entries) =
      if key ∈ keys entries then keys entries else keys entries ++ [key] := by
  induction entries with
  | nil => rfl
  | cons entry rest ih =>
    obtain ⟨k, v⟩ := entry
    by_cases hk : k = key
    · subst hk
      simp [put, keys]
    · have hput : put key value ((k, v) :: rest) = (k, v) :: put key value rest := by
        simp [put, hk]
      have hmem : key ∈ keys ((k, v) :: rest) ↔ key ∈ keys rest := by
        simp [keys, Ne.symm hk]
      have hkeys : keys (put key value ((k, v) :: rest)) = k :: keys (put key value rest) := by
        rw [hput]
        rfl
      rw [hkeys, ih, if_congr hmem rfl rfl]
      split <;> rfl

theorem mem_of_mem_put {key : α} {value : β} {entries : Entries α β} {entry : α × β}
    (h : entry ∈ put key value entries) : entry = (key, value) ∨ entry ∈ entries := by
  induction entries with
  | nil => exact Or.inl (List.mem_singleton.mp h)
  | cons first rest ih =>
    simp only [put] at h
    split at h
    · next hkey =>
      rw [beq_iff_eq] at hkey
      rcases List.mem_cons.mp h with rfl | hrest
      · exact Or.inl (by rw [hkey])
      · exact Or.inr (List.mem_cons_of_mem first hrest)
    · rcases List.mem_cons.mp h with rfl | hrest
      · exact Or.inr List.mem_cons_self
      · exact (ih hrest).imp_right (List.mem_cons_of_mem first)

theorem put_put (key : α) (value value' : β) (entries : Entries α β) :
    put key value (put key value' entries) = put key value entries := by
  induction entries with
  | nil => simp [put]
  | cons entry rest ih =>
    obtain ⟨k, v⟩ := entry
    by_cases hk : k = key
    · simp [put, hk]
    · simp [put, hk, ih]

theorem put_comm {key other : α} (hne : key ≠ other) (value value' : β) {entries : Entries α β}
    (hkey : key ∈ keys entries) :
    put key value (put other value' entries) = put other value' (put key value entries) := by
  induction entries with
  | nil => cases hkey
  | cons entry rest ih =>
    obtain ⟨k, v⟩ := entry
    by_cases hk : k = key
    · subst hk
      simp [put, hne]
    · have hrest : key ∈ keys rest := by
        simpa [keys, Ne.symm hk] using hkey
      by_cases hother : k = other
      · simp [put, hother, hne.symm]
      · simp [put, hk, hother, ih hrest]

/-- A key that nothing is laid over any more can take its value before or after. -/
theorem put_overlay {key : α} (value : β) {entries later : Entries α β}
    (hkey : key ∈ keys entries) (hnew : key ∉ keys later) :
    put key value (overlay entries later) = overlay (put key value entries) later := by
  induction later generalizing entries with
  | nil => rfl
  | cons entry rest ih =>
    obtain ⟨k, v⟩ := entry
    simp only [keys, List.map_cons, List.mem_cons, not_or] at hnew
    have hkept : key ∈ keys (put k v entries) := by
      rw [keys_put]
      split
      · exact hkey
      · exact List.mem_append_left _ hkey
    rw [overlay_cons, overlay_cons, ih hkept hnew.2, put_comm hnew.1 _ _ hkey]

theorem mem_keys_overlay {key : α}
    {entries later : Entries α β} :
    key ∈ keys (overlay entries later) ↔ key ∈ keys entries ∨ key ∈ keys later := by
  induction later generalizing entries with
  | nil => simp [keys]
  | cons entry rest ih =>
    have hput : key ∈ keys (put entry.1 entry.2 entries) ↔ key ∈ keys entries ∨ key = entry.1 := by
      rw [keys_put]
      split
      · next hthere => exact ⟨Or.inl, fun h => h.elim id fun hkey => hkey ▸ hthere⟩
      · exact List.mem_append.trans (or_congr_right List.mem_singleton)
    have hkeys : key ∈ keys (entry :: rest) ↔ key = entry.1 ∨ key ∈ keys rest := List.mem_cons
    rw [overlay_cons, ih, hput, hkeys, or_assoc]

theorem exists_find?_of_mem_keys {key : α}
    {entries : Entries α β} (h : key ∈ keys entries) : ∃ value, find? key entries = some value := by
  induction entries with
  | nil => cases h
  | cons entry rest ih =>
    simp only [find?]
    split
    · exact ⟨entry.2, rfl⟩
    · next hother =>
      rcases List.mem_cons.mp h with hkey | hrest
      · exact absurd (beq_iff_eq.mpr hkey.symm) hother
      · exact ih hrest

theorem find?_of_notMem_keys {key : α} {entries : Entries α β} (h : key ∉ keys entries) :
    find? key entries = none := by
  induction entries with
  | nil => rfl
  | cons entry rest ih =>
    have hkeys : keys (entry :: rest) = entry.1 :: keys rest := rfl
    rw [hkeys, List.mem_cons, not_or] at h
    rw [find?, if_neg (by simpa using Ne.symm h.1), ih h.2]

theorem nodup_keys_put (key : α) (value : β) {entries : Entries α β}
    (hnodup : (keys entries).Nodup) : (keys (put key value entries)).Nodup := by
  rw [keys_put]
  split
  · exact hnodup
  · next hnew => simpa [List.nodup_append] using ⟨hnodup, fun k hk hsame => hnew (hsame ▸ hk)⟩

theorem nodup_keys_overlay {entries : Entries α β} (hnodup : (keys entries).Nodup)
    (later : Entries α β) : (keys (overlay entries later)).Nodup := by
  induction later generalizing entries with
  | nil => exact hnodup
  | cons entry rest ih => exact ih (nodup_keys_put entry.1 entry.2 hnodup)

theorem overlay_put (key : α) (value : β) (entries : Entries α β) {later : Entries α β}
    (hnodup : (keys later).Nodup) :
    overlay entries (put key value later) = put key value (overlay entries later) := by
  induction later generalizing entries with
  | nil => rfl
  | cons entry rest ih =>
    obtain ⟨k, v⟩ := entry
    obtain ⟨hnew, hrest⟩ := List.nodup_cons.mp hnodup
    by_cases hk : k = key
    · subst hk
      have hthere : k ∈ keys (put k v entries) := by
        rw [keys_put]
        split
        · assumption
        · simp
      rw [overlay_cons, put_overlay value hthere hnew, put_put]
      simp [put]
    · have hput : put key value ((k, v) :: rest) = (k, v) :: put key value rest := by
        simp [put, hk]
      rw [hput, overlay_cons, overlay_cons, ih _ hrest]

/-- Entries may be collected on their own before they are laid over others. -/
theorem overlay_collected (entries later : Entries α β) :
    overlay entries (overlay [] later) = overlay entries later := by
  induction later using List.reverseRecOn with
  | nil => rfl
  | append_singleton later entry ih =>
    have hnil : (keys ([] : Entries α β)).Nodup := List.nodup_nil
    have hnodup := nodup_keys_overlay hnil later
    have hlast (start : Entries α β) :
        overlay start (later ++ [entry]) = put entry.1 entry.2 (overlay start later) :=
      overlay_append start later [entry]
    rw [hlast, hlast, overlay_put _ _ _ hnodup, ih]

/-- Old keys keep their places, and new keys follow in the order in which they come on their
own. -/
theorem keys_overlay (entries later : Entries α β) :
    keys (overlay entries later) =
      keys entries ++ (keys (overlay [] later)).filter (· ∉ keys entries) := by
  induction later using List.reverseRecOn with
  | nil => simp [keys]
  | append_singleton later entry ih =>
    obtain ⟨key, value⟩ := entry
    have hput (start : Entries α β) : keys (overlay start (later ++ [(key, value)])) =
        if key ∈ keys (overlay start later) then keys (overlay start later)
        else keys (overlay start later) ++ [key] := by
      rw [overlay_append]
      exact keys_put key value (overlay start later)
    rw [hput entries, hput []]
    by_cases hcollected : key ∈ keys (overlay [] later)
    · have hthere : key ∈ keys (overlay entries later) := by
        rw [ih]
        by_cases hold : key ∈ keys entries
        · exact List.mem_append_left _ hold
        · exact List.mem_append_right _ (by simp [hcollected, hold])
      rw [if_pos hthere, if_pos hcollected, ih]
    · rw [if_neg hcollected, List.filter_append, ih]
      by_cases hold : key ∈ keys entries
      · simp [hold]
      · simp [hold, hcollected]

theorem put_of_notMem_keys {key : α} {entries : Entries α β} (h : key ∉ keys entries)
    (value : β) : put key value entries = entries ++ [(key, value)] := by
  induction entries with
  | nil => rfl
  | cons entry rest ih =>
    have hkeys : keys (entry :: rest) = entry.1 :: keys rest := rfl
    rw [hkeys, List.mem_cons, not_or] at h
    rw [put, if_neg (by simpa using Ne.symm h.1), ih h.2]
    rfl

theorem overlay_of_nodup {entries later : Entries α β} (h : (keys (entries ++ later)).Nodup) :
    overlay entries later = entries ++ later := by
  induction later generalizing entries with
  | nil => exact (List.append_nil entries).symm
  | cons entry rest ih =>
    have hkeys : keys (entries ++ entry :: rest) = keys entries ++ entry.1 :: keys rest :=
      List.map_append
    have hnew : entry.1 ∉ keys entries := by
      rw [hkeys] at h
      exact fun hmem => (List.nodup_append.mp h).2.2 _ hmem _ List.mem_cons_self rfl
    have happend : entries ++ [(entry.1, entry.2)] ++ rest = entries ++ entry :: rest :=
      List.append_assoc _ _ _
    rw [overlay_cons, put_of_notMem_keys hnew, ih (by rwa [happend]), happend]

/-- Pairs whose keys are all different are kept as they are. -/
theorem ofPairs_of_nodup {pairs : Entries α β} (h : (keys pairs).Nodup) :
    ofPairs pairs = pairs :=
  overlay_of_nodup h

end Entries

end Motif
