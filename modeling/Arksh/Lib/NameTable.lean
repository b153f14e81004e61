/-
  Subject: Tables of entries under a name, with room for `cap` entries, each name in a field of
           `size` bytes.

  The C idiom behind it: a linear search for the first entry whose name equals the text; where
  there is none, the array grows by one entry up to its limit, and the name is copied into the
  field, cut where it does not fit. Such a name is found under its own first bytes only.
-/
import Arksh.Lib.Assoc
import Arksh.Lib.Text
import Mathlib.Algebra.GroupWithZero.Nat
import Mathlib.Data.List.Perm.Subperm

namespace Tables

open CText Assoc List Option

variable {size cap : Nat} {E : Type} {entries' entries : List (Text × E)} {update : Option E → E}

/-! ## 1. On lists -/

def storeEntry (size cap : Nat) (entries : List (Text × E)) (name : Text)
    (update : Option E → E) : Option (List (Text × E)) :=
  match entries.lookup name with
  | some e => some (put name (update (some e)) entries)
  | none =>
    if entries.length < cap then some (entries ++ [(copyString size name, update none)])
    else none

/-- What `storeEntry` does to the names: a new name takes an entry, if there is room, under as much
    of it as fits. -/
def enter (size cap : Nat) (names : List Text) (name : Text) : List Text :=
  if name ∈ names then names
  else if names.length < cap then names ++ [copyString size name]
  else names

/-- There is an entry, or room for one. -/
def Accepts (cap : Nat) (names : List Text) (name : Text) : Prop :=
  name ∈ names ∨ names.length < cap

instance (names : List Text) (name : Text) : Decidable (Accepts cap names name) := by
  unfold Accepts
  infer_instance

variable {name n m : Text}

theorem mem_names_of_lookup {e : E} (h : entries.lookup name = some e) :
    name ∈ entries.map Prod.fst := by
  obtain ⟨l₁, l₂, rfl, _⟩ := lookup_eq_some_iff.mp h
  simp

theorem not_mem_names_of_lookup (h : entries.lookup name = none) : name ∉ entries.map Prod.fst := by
  intro hmem
  obtain ⟨p, hp, rfl⟩ := mem_map.mp hmem
  have hne := lookup_eq_none_iff.mp h p hp
  simp at hne

theorem storeEntry_names (h : storeEntry size cap entries name update = some entries') :
    entries'.map Prod.fst = enter size cap (entries.map Prod.fst) name := by
  unfold storeEntry at h
  unfold enter
  split at h
  · rename_i e he
    cases h
    rw [keys_put, if_pos (mem_names_of_lookup he), if_pos (mem_names_of_lookup he)]
  · rename_i hnone
    split at h
    · rename_i hroom
      cases h
      rw [if_neg (not_mem_names_of_lookup hnone), length_map, if_pos hroom, map_append]
      rfl
    · cases h

theorem storeEntry_eq_none {entries : List (Text × E)} {update : Option E → E} :
    storeEntry size cap entries name update = none ↔ ¬ Accepts cap (entries.map Prod.fst) name := by
  unfold storeEntry Accepts
  split
  · rename_i e he
    have hmem := mem_names_of_lookup he
    constructor
    · intro h; cases h
    · intro h; exact absurd (Or.inl hmem) h
  · rename_i hnone
    have hmem := not_mem_names_of_lookup hnone
    rw [length_map]
    split
    · rename_i hroom
      constructor
      · intro h; cases h
      · intro h; exact absurd (Or.inr hroom) h
    · rename_i hfull
      constructor
      · intro _ h; exact h.elim hmem hfull
      · intro _; rfl

theorem mem_enter_of_mem {names : List Text} (h : m ∈ names) : m ∈ enter size cap names n := by
  unfold enter
  split
  · exact h
  · split
    · exact mem_append_left _ h
    · exact h

theorem enter_of_not_accepts {names : List Text} (h : ¬ Accepts cap names n) :
    enter size cap names n = names := by
  unfold enter
  rw [if_neg fun hmem => h (Or.inl hmem), if_neg fun hroom => h (Or.inr hroom)]

theorem mem_enter_self {names : List Text} (h : Accepts cap names n) (hn : n.length < size) :
    n ∈ enter size cap names n := by
  unfold enter
  split
  · assumption
  · rename_i hmem
    rw [if_pos (h.resolve_left hmem), copyString_of_lt hn]
    exact mem_append_right _ (mem_singleton.mpr rfl)

/-- Only the name itself can come in, where it fits. -/
theorem mem_enter {names : List Text} (h : m ∈ enter size cap names n) :
    m ∈ names ∨ m = copyString size n := by
  unfold enter at h
  split at h
  · exact Or.inl h
  · split at h
    · rcases mem_append.mp h with h | h
      · exact Or.inl h
      · exact Or.inr (mem_singleton.mp h)
    · exact Or.inl h

theorem nodup_enter {names : List Text} (hn : n.length < size) (h : names.Nodup) :
    (enter size cap names n).Nodup := by
  unfold enter
  split
  · exact h
  · rename_i hmem
    split
    · rw [copyString_of_lt hn]
      exact List.Nodup.concat hmem h |> fun h' => by rwa [concat_eq_append] at h'
    · exact h

theorem length_enter {names : List Text} (n : Text) (h : names.length ≤ cap) :
    (enter size cap names n).length ≤ cap := by
  unfold enter
  split
  · exact h
  · split
    · rw [length_append, length_singleton]; omega
    · exact h

theorem enter_lt [NeZero size] {names : List Text} (n : Text) (h : ∀ m ∈ names, m.length < size) :
    ∀ m ∈ enter size cap names n, m.length < size := by
  intro m hm
  rcases mem_enter hm with hm | hm
  · exact h m hm
  · rw [hm]; exact copyString_length_lt (Nat.pos_of_ne_zero (NeZero.ne size)) n

section

variable (h : storeEntry size cap entries name update = some entries')
include h

theorem lookup_storeEntry_self (hn : name.length < size) :
    entries'.lookup name = some (update (entries.lookup name)) := by
  unfold storeEntry at h
  split at h
  · rename_i e he
    cases h
    rw [lookup_put_self, he]
  · rename_i hnone
    split at h
    · cases h; rw [lookup_append, hnone, copyString_of_lt hn, none_or, lookup_cons_self]
    · cases h

theorem lookup_storeEntry_cut (hname : name ∉ entries.map Prod.fst)
    (hcut : copyString size name ∉ entries.map Prod.fst) :
    entries'.lookup (copyString size name) = some (update none) := by
  have hnone : ∀ {m : Text}, m ∉ entries.map Prod.fst → entries.lookup m = none := by
    intro m hm
    cases he : entries.lookup m with
    | none => rfl
    | some e => exact absurd (mem_names_of_lookup he) hm
  rw [storeEntry, hnone hname] at h
  dsimp only at h
  split at h
  · cases h; rw [lookup_append, hnone hcut, none_or, lookup_cons_self]
  · cases h

theorem lookup_storeEntry_of_ne (hm : m ≠ name)
    (hcut : m ≠ copyString size name ∨ m ∈ entries.map Prod.fst) :
    entries'.lookup m = entries.lookup m := by
  unfold storeEntry at h
  split at h
  · cases h; exact lookup_put_of_ne hm _ _
  · split at h
    · cases h
      rw [lookup_append]
      cases he : entries.lookup m with
      | some e => rfl
      | none =>
        have hne : m ≠ copyString size name := hcut.resolve_right (not_mem_names_of_lookup he)
        rw [none_or, lookup_cons_ite, if_neg hne]
        rfl
    · cases h

theorem storeEntry_under (hm : m ≠ name) (hcut : m ≠ copyString size name) :
    entries'.filter (·.1 = m) = entries.filter (·.1 = m) := by
  unfold storeEntry at h
  split at h
  · rename_i e he
    cases h
    clear he
    induction entries with
    | nil => simp [hm.symm]
    | cons p l ih =>
      by_cases hp : p.1 = name
      · simp [put, hp, hm.symm]
      · rw [put_cons_of_ne hp, filter_cons, filter_cons, ih]
  · split at h
    · cases h; simp [filter_append, hcut.symm]
    · cases h

end

def removeEntry (entries : List (Text × E)) (name : Text) : List (Text × E) :=
  entries.eraseP (·.1 = name)

theorem lookup_removeEntry_of_ne (hm : m ≠ name) (entries : List (Text × E)) :
    (removeEntry entries name).lookup m = entries.lookup m := by
  unfold removeEntry
  induction entries with
  | nil => rfl
  | cons p l ih =>
    by_cases hp : p.1 = name
    · rw [eraseP_cons_of_pos (by simpa using hp), lookup_cons_ite, if_neg fun e => hm (e.trans hp)]
    · rw [eraseP_cons_of_neg (by simpa using hp), lookup_cons_ite, lookup_cons_ite, ih]

theorem removeEntry_under (hm : m ≠ name) (entries : List (Text × E)) :
    (removeEntry entries name).filter (·.1 = m) = entries.filter (·.1 = m) := by
  unfold removeEntry
  induction entries with
  | nil => rfl
  | cons p l ih =>
    by_cases hp : p.1 = name
    · rw [eraseP_cons_of_pos (by simpa using hp), filter_cons,
        if_neg (by simpa using fun e => hm (e.symm.trans hp))]
    · rw [eraseP_cons_of_neg (by simpa using hp), filter_cons, filter_cons, ih]

theorem removeEntry_names (name : Text) (entries : List (Text × E)) :
    (removeEntry entries name).map Prod.fst = (entries.map Prod.fst).erase name := by
  unfold removeEntry
  induction entries with
  | nil => rfl
  | cons p l ih =>
    by_cases hp : p.1 = name
    · rw [eraseP_cons_of_pos (by simpa using hp), map_cons, hp, erase_cons_head]
    · rw [eraseP_cons_of_neg (by simpa using hp), map_cons, map_cons, ih,
        erase_cons_tail (by simpa using hp)]

/-! ## 2. The table -/

/-- A table of at most `cap` entries whose names take at most `size` bytes with their NUL. -/
structure NameTable (size cap : Nat) (E : Type) where
  entries : List (Text × E)
  names_lt : ∀ m ∈ entries.map Prod.fst, m.length < size
  length_le : (entries.map Prod.fst).length ≤ cap

namespace NameTable

@[ext] theorem ext {t u : NameTable size cap E} (h : t.entries = u.entries) : t = u := by
  cases t
  cases u
  cases h
  rfl

def empty : NameTable size cap E := ⟨[], fun _ h => absurd h List.not_mem_nil, Nat.zero_le cap⟩

def names (t : NameTable size cap E) : List Text := t.entries.map Prod.fst

def find (t : NameTable size cap E) (name : Text) : Option E := t.entries.lookup name

/-- `storeEntry` keeps the bounds. -/
def store [NeZero size] (t : NameTable size cap E) (name : Text) (update : Option E → E) :
    Option (NameTable size cap E) :=
  match h : storeEntry size cap t.entries name update with
  | none => none
  | some entries =>
    some ⟨entries, by
      rw [storeEntry_names h]
      exact enter_lt name t.names_lt, by
      rw [storeEntry_names h]
      exact length_enter name t.length_le⟩

def remove (t : NameTable size cap E) (name : Text) : NameTable size cap E :=
  ⟨removeEntry t.entries name,
    fun _ hm => t.names_lt _ ((List.eraseP_sublist.map Prod.fst).subset hm),
    ((List.eraseP_sublist.map Prod.fst).length_le).trans t.length_le⟩

def map {F : Type} (f : E → F) (t : NameTable size cap E) : NameTable size cap F :=
  have hnames : (t.entries.map fun p => (p.1, f p.2)).map Prod.fst = t.entries.map Prod.fst := by
    rw [List.map_map]
    rfl
  ⟨t.entries.map fun p => (p.1, f p.2), by
    rw [hnames]
    exact t.names_lt, by
    rw [hnames]
    exact t.length_le⟩

/-- The entries under a name: `find` shows the first. -/
def under (t : NameTable size cap E) (name : Text) : List (Text × E) :=
  t.entries.filter (·.1 = name)

theorem find_eq_under (t : NameTable size cap E) (name : Text) :
    t.find name = (t.under name).head?.map Prod.snd := by
  unfold find under
  induction t.entries with
  | nil => rfl
  | cons p l ih =>
    rw [lookup_cons_ite, filter_cons]
    by_cases hp : p.1 = name
    · simp [hp]
    · rw [if_neg fun e => hp e.symm, if_neg (by simpa using hp), ih]

theorem count_eq_under (t : NameTable size cap E) (name : Text) :
    t.names.count name = (t.under name).length := by
  unfold names under
  induction t.entries with
  | nil => rfl
  | cons p l ih =>
    rw [map_cons, filter_cons, count_cons, ih]
    by_cases hp : p.1 = name <;> simp [hp]

variable {t : NameTable size cap E}

theorem find_eq_none : t.find name = none ↔ name ∉ t.names := by
  constructor
  · intro h; exact not_mem_names_of_lookup h
  · intro h
    cases he : t.find name with
    | none => rfl
    | some e => exact absurd (mem_names_of_lookup he) h

theorem not_mem_of_le (h : size ≤ name.length) :
    name ∉ t.names := fun hmem => absurd (t.names_lt name hmem) (Nat.not_lt.mpr h)

theorem find_of_le (h : size ≤ name.length) :
    t.find name = none := find_eq_none.mpr (not_mem_of_le h)

section Store

variable [NeZero size] {t t' : NameTable size cap E} {name : Text} {update : Option E → E}

theorem map_store :
    (t.store name update).map NameTable.entries = storeEntry size cap t.entries name update := by
  unfold store
  split
  · rename_i h; exact h.symm
  · rename_i h; exact h.symm

theorem store_eq_some (h : t.store name update = some t') :
    storeEntry size cap t.entries name update = some t'.entries := by
  rw [← map_store, h]
  rfl

theorem store_eq_none : t.store name update = none ↔ ¬ Accepts cap t.names name := by
  rw [NameTable.names, ← @storeEntry_eq_none size _ _ _ _ update, ← map_store, map_eq_none_iff]

section

variable (h : t.store name update = some t')
include h

theorem accepts_of_store : Accepts cap t.names name := by
  by_contra hno
  rw [store_eq_none.mpr hno] at h
  cases h

theorem names_store : t'.names = enter size cap t.names name := storeEntry_names (store_eq_some h)

theorem find_store_self (hn : name.length < size) : t'.find name = some (update (t.find name)) :=
  lookup_storeEntry_self (store_eq_some h) hn

theorem find_store_cut (hname : name ∉ t.names) (hcut : copyString size name ∉ t.names) :
    t'.find (copyString size name) = some (update none) :=
  lookup_storeEntry_cut (store_eq_some h) hname hcut

theorem find_store_of_ne (hm : m ≠ name) (hcut : m ≠ copyString size name ∨ m ∈ t.names) :
    t'.find m = t.find m :=
  lookup_storeEntry_of_ne (store_eq_some h) hm hcut

theorem under_store (hm : m ≠ name) (hcut : m ≠ copyString size name) : t'.under m = t.under m :=
  storeEntry_under (store_eq_some h) hm hcut

theorem length_names_store : t.names.length ≤ t'.names.length := by
  rw [names_store h]
  unfold enter
  split
  · exact le_refl _
  · split
    · rw [length_append]; exact Nat.le_add_right _ _
    · exact le_refl _

end

end Store

theorem under_remove (hm : m ≠ name) :
    (t.remove name).under m = t.under m := removeEntry_under hm t.entries

theorem find_remove_of_ne (hm : m ≠ name) :
    (t.remove name).find m = t.find m := lookup_removeEntry_of_ne hm t.entries

theorem names_remove (t : NameTable size cap E) (name : Text) :
    (t.remove name).names = t.names.erase name := removeEntry_names name t.entries

end NameTable

end Tables
