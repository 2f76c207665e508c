import Mathlib.Data.List.Basic

/-!
# Insertion-ordered dictionaries

A dictionary is a list of key and value pairs in insertion order. Updating an
existing key changes its value in place and keeps the order of the keys, so a
dictionary with distinct keys stays one.
-/

namespace GlmSpark.Dict

universe u v
variable {κ : Type u} {β : Type v} [DecidableEq κ]

/-- Apply a function to the value stored under a key. -/
def update (key : κ) (f : β → β) (dict : List (κ × β)) : List (κ × β) :=
  dict.map fun entry => if entry.1 = key then (entry.1, f entry.2) else entry

/-- Updating leaves the keys and their order alone. -/
@[simp] theorem keys_update (key : κ) (f : β → β) (dict : List (κ × β)) :
    (update key f dict).map Prod.fst = dict.map Prod.fst := by
  rw [update, List.map_map]
  apply List.map_congr_left
  intro entry _
  simp only [Function.comp_apply]
  split <;> rfl

/-- A key that is not stored has nothing to update. -/
theorem update_absent (key : κ) (f : β → β) (dict : List (κ × β))
    (absent : key ∉ dict.map Prod.fst) : update key f dict = dict := by
  have kept : ∀ entry ∈ dict, (if entry.1 = key then (entry.1, f entry.2) else entry) = id entry :=
    fun entry stored => if_neg fun same : entry.1 = key =>
      absent (same ▸ List.mem_map_of_mem stored)
  rw [update, List.map_congr_left kept, List.map_id]

/-- Only the updated key reads differently afterwards. -/
theorem lookup_update (key other : κ) (f : β → β) (dict : List (κ × β)) :
    (update key f dict).lookup other =
      if other = key then (dict.lookup other).map f else dict.lookup other := by
  induction dict with
  | nil => simp [update]
  | cons entry rest ih =>
    obtain ⟨name, value⟩ := entry
    change List.lookup other ((if name = key then (name, f value) else (name, value)) ::
      update key f rest) = _
    by_cases here : other = name
    · subst here
      by_cases updated : other = key
      · subst updated
        simp
      · simp [updated]
    · have passed : (other == name) = false := by simpa using here
      by_cases updated : name = key
      · subst updated
        simpa [List.lookup_cons, passed, here] using ih
      · simpa [List.lookup_cons, passed, updated] using ih

/-- Store a value under a key, in place when the key is known. -/
def assign (key : κ) (value : β) (dict : List (κ × β)) : List (κ × β) :=
  if key ∈ dict.map Prod.fst then update key (fun _ => value) dict else dict ++ [(key, value)]

/-- Forget a key. -/
def erase (key : κ) (dict : List (κ × β)) : List (κ × β) :=
  dict.filter fun entry => entry.1 ≠ key

/-- A new key goes to the end. -/
theorem assign_absent (key : κ) (value : β) (dict : List (κ × β))
    (absent : key ∉ dict.map Prod.fst) : assign key value dict = dict ++ [(key, value)] :=
  if_neg absent

/-- Forgetting a key that is not there changes nothing, as Python's `pop` with a default. -/
theorem erase_absent (key : κ) (dict : List (κ × β)) (absent : key ∉ dict.map Prod.fst) :
    erase key dict = dict := by
  rw [erase, List.filter_eq_self]
  intro entry listed
  exact decide_eq_true fun same => absent (same ▸ List.mem_map_of_mem listed)

/-- Forgetting a key takes back that it was stored. -/
theorem erase_assign (key : κ) (value : β) (dict : List (κ × β))
    (absent : key ∉ dict.map Prod.fst) : erase key (assign key value dict) = dict := by
  have last : erase key [(key, value)] = [] := by simp [erase]
  rw [assign_absent key value dict absent, erase, List.filter_append, ← erase, ← erase, last,
    erase_absent key dict absent, List.append_nil]

/-- The keys after an assignment are the keys before it and the assigned one. -/
theorem mem_keys_assign (key other : κ) (value : β) (dict : List (κ × β)) :
    other ∈ (assign key value dict).map Prod.fst ↔ other = key ∨ other ∈ dict.map Prod.fst := by
  rw [assign]
  split
  next known =>
    rw [keys_update]
    exact ⟨.inr, fun either => either.elim (fun same => same ▸ known) id⟩
  next => rw [List.map_append, List.mem_append, or_comm, List.map_singleton, List.mem_singleton]

/-- What is stored after an assignment is the new pair or was stored before. -/
theorem mem_assign (key : κ) (value : β) (dict : List (κ × β)) {entry : κ × β}
    (stored : entry ∈ assign key value dict) : entry = (key, value) ∨ entry ∈ dict := by
  rw [assign] at stored
  split at stored
  next =>
    obtain ⟨old, listed, rfl⟩ := List.mem_map.mp stored
    split
    next same => exact .inl (by rw [same])
    next => exact .inr listed
  next =>
    obtain listed | last := List.mem_append.mp stored
    · exact .inr listed
    · exact .inl (List.mem_singleton.mp last)

/-- A key that is not stored reads as nothing. -/
theorem lookup_eq_none (key : κ) (dict : List (κ × β)) (absent : key ∉ dict.map Prod.fst) :
    dict.lookup key = none := by
  rw [List.lookup_eq_none_iff]
  intro entry stored
  have different : key ≠ entry.1 := fun same => absent (same ▸ List.mem_map_of_mem stored)
  simpa using different

/-- A stored key reads as some value. -/
theorem mem_keys_iff (key : κ) (dict : List (κ × β)) :
    key ∈ dict.map Prod.fst ↔ ∃ value, dict.lookup key = some value := by
  constructor
  · intro stored
    cases found : dict.lookup key with
    | none =>
      obtain ⟨entry, listed, name⟩ := List.mem_map.mp stored
      have different := List.lookup_eq_none_iff.mp found entry listed
      simp [name] at different
    | some value => exact ⟨value, rfl⟩
  · rintro ⟨value, found⟩
    by_contra absent
    rw [lookup_eq_none key dict absent] at found
    exact absurd found (Option.some_ne_none value).symm

/-- The stored value is read back, and no other key changes. -/
theorem lookup_assign (key other : κ) (value : β) (dict : List (κ × β)) :
    (assign key value dict).lookup other =
      if other = key then some value else dict.lookup other := by
  rw [assign]
  split
  next known =>
    rw [lookup_update]
    split
    next same =>
      subst same
      obtain ⟨old, found⟩ := (mem_keys_iff other dict).mp known
      rw [found, Option.map_some]
    next => rfl
  next unknown =>
    rw [List.lookup_append]
    split
    next same =>
      subst same
      simp [lookup_eq_none other dict unknown]
    next different =>
      have passed : (other == key) = false := by simpa using different
      simp [List.lookup_cons, passed]

/-- An erased key reads as nothing, and no other key changes. -/
theorem lookup_erase (key other : κ) (dict : List (κ × β)) :
    (erase key dict).lookup other = if other = key then none else dict.lookup other := by
  induction dict with
  | nil => simp [erase]
  | cons entry rest ih =>
    obtain ⟨name, value⟩ := entry
    rw [erase] at ih
    by_cases erased : name = key
    · subst erased
      rw [erase, List.filter_cons_of_neg (by simp), ih]
      by_cases same : other = name
      · simp [same]
      · have passed : (other == name) = false := by simpa using same
        simp [List.lookup_cons, passed, same]
    · rw [erase, List.filter_cons_of_pos (by simpa using erased)]
      by_cases here : other = name
      · subst here
        simp [erased]
      · have passed : (other == name) = false := by simpa using here
        simpa [List.lookup_cons, passed] using ih

/-- Storing a value keeps the keys distinct. -/
theorem nodup_assign (key : κ) (value : β) (dict : List (κ × β))
    (distinct : (dict.map Prod.fst).Nodup) : ((assign key value dict).map Prod.fst).Nodup := by
  rw [assign]
  split
  next => simpa using distinct
  next unknown =>
    rw [List.map_append, List.map_singleton, List.nodup_append]
    refine ⟨distinct, List.nodup_cons.mpr ⟨List.not_mem_nil, List.nodup_nil⟩,
      fun other listed also single => ?_⟩
    obtain rfl : also = key := List.mem_singleton.mp single
    exact fun same => unknown (same ▸ listed)

/-- With distinct keys a pair is stored exactly when its key reads as its value. -/
theorem lookup_eq_some_iff (dict : List (κ × β)) (distinct : (dict.map Prod.fst).Nodup) (key : κ)
    (value : β) : dict.lookup key = some value ↔ (key, value) ∈ dict := by
  induction dict with
  | nil => simp
  | cons entry rest ih =>
    obtain ⟨name, stored⟩ := entry
    obtain ⟨fresh, others⟩ := List.nodup_cons.mp distinct
    by_cases here : key = name
    · subst here
      have later : (key, value) ∉ rest := fun listed =>
        fresh (List.mem_map.mpr ⟨_, listed, rfl⟩)
      simp [later, eq_comm]
    · have passed : (key == name) = false := by simpa using here
      simp [List.lookup_cons, passed, here, ih others]

end GlmSpark.Dict
