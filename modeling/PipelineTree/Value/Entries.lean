/-!
# Entries — dictionaries that remember their order

A dictionary is the list of its entries.  Writing to a key that is present replaces the value and keeps
the entry's place (and its key as first written); writing to an absent key appends.  Reading is
`List.lookup`, the first entry with the key.
-/

namespace PipelineTree

namespace Entries

variable {κ β : Type} [BEq κ]

def insert (key : κ) (value : β) : List (κ × β) → List (κ × β)
  | [] => [(key, value)]
  | (k, v) :: rest => if k == key then (k, value) :: rest else (k, v) :: insert key value rest

def overlay (base : List (κ × β)) : List (κ × β) → List (κ × β)
  | [] => base
  | (k, v) :: rest => overlay (insert k v base) rest

def ofList (writes : List (κ × β)) : List (κ × β) := overlay [] writes

def contains (key : κ) (entries : List (κ × β)) : Bool := entries.any (·.1 == key)

/-- Drops the entries with a key, keeping the order of the others. -/
def erase (key : κ) (entries : List (κ × β)) : List (κ × β) := entries.filter (!·.1 == key)

/-! ## Reading back -/

@[simp] theorem insert_nil (key : κ) (value : β) : insert key value [] = [(key, value)] := rfl

@[simp] theorem overlay_nil (base : List (κ × β)) : overlay base [] = base := rfl

/-- A write to an absent key appends. -/
theorem insert_of_not_contains {key : κ} {value : β} {entries : List (κ × β)}
    (absent : contains key entries = false) :
    insert key value entries = entries ++ [(key, value)] := by
  induction entries with
  | nil => rfl
  | cons e rest ih =>
    obtain ⟨k, v⟩ := e
    simp only [contains, List.any_cons, Bool.or_eq_false_iff] at absent
    simp [insert, absent.1, ih (by simpa [contains] using absent.2)]

/-- A write to a present key leaves the keys as they are. -/
theorem keys_insert_of_contains {key : κ} {value : β} {entries : List (κ × β)}
    (present : contains key entries = true) :
    (insert key value entries).map (·.1) = entries.map (·.1) := by
  induction entries with
  | nil => simp [contains] at present
  | cons e rest ih =>
    obtain ⟨k, v⟩ := e
    by_cases h : (k == key) = true
    · simp [insert, h]
    · simp only [contains, List.any_cons, Bool.or_eq_true] at present
      have tail : contains key rest = true := by
        rcases present with here | there
        · exact absurd here h
        · simpa [contains] using there
      simp [insert, h, ih tail]

/-! ## Erasing a key -/

theorem erase_cons_self [LawfulBEq κ] (key : κ) (value : β) (entries : List (κ × β)) :
    erase key ((key, value) :: entries) = erase key entries := by
  simp [erase]

theorem erase_cons_of_ne {key k : κ} (hne : (k == key) = false) (value : β)
    (entries : List (κ × β)) :
    erase key ((k, value) :: entries) = (k, value) :: erase key entries := by
  simp [erase, hne]

theorem erase_insert_self [LawfulBEq κ] (key : κ) (value : β) (entries : List (κ × β)) :
    erase key (insert key value entries) = erase key entries := by
  induction entries with
  | nil => simp [erase]
  | cons e rest ih =>
    obtain ⟨k, v⟩ := e
    by_cases h : k = key
    · subst h
      rw [insert, if_pos (beq_self_eq_true k), erase_cons_self, erase_cons_self]
    · have hne : (k == key) = false := by simpa using h
      rw [insert, hne, if_neg Bool.false_ne_true, erase_cons_of_ne hne, erase_cons_of_ne hne, ih]

theorem erase_insert_of_ne [LawfulBEq κ] {key k : κ} (hne : (k == key) = false) (value : β)
    (entries : List (κ × β)) :
    erase key (insert k value entries) = insert k value (erase key entries) := by
  induction entries with
  | nil => simp [erase, hne]
  | cons e rest ih =>
    obtain ⟨k', v⟩ := e
    by_cases h : k' = key
    · subst h
      have hother : (k' == k) = false := by
        rw [beq_eq_false_iff_ne] at hne ⊢
        exact hne.symm
      rw [insert, hother, if_neg Bool.false_ne_true, erase_cons_self, erase_cons_self, ih]
    · have hne' : (k' == key) = false := by simpa using h
      rw [erase_cons_of_ne hne', insert, insert]
      split
      · rw [erase_cons_of_ne hne']
      · rw [erase_cons_of_ne hne', ih]

/-- Writes to a key leave no trace once the key is erased. -/
theorem erase_overlay [LawfulBEq κ] (key : κ) (base writes : List (κ × β)) :
    erase key (overlay base writes) = overlay (erase key base) (erase key writes) := by
  induction writes generalizing base with
  | nil => rfl
  | cons w writes ih =>
    obtain ⟨k, v⟩ := w
    -- What is left of the first write depends on whether it is one to the key.
    have hfirst : overlay (erase key (insert k v base)) (erase key writes) =
        overlay (erase key base) (erase key ((k, v) :: writes)) := by
      by_cases h : k = key
      · subst h
        rw [erase_insert_self, erase_cons_self]
      · have hne : (k == key) = false := by simpa using h
        rw [erase_insert_of_ne hne, erase_cons_of_ne hne, overlay]
    calc
      erase key (overlay base ((k, v) :: writes)) = erase key (overlay (insert k v base) writes) := rfl
      _ = overlay (erase key (insert k v base)) (erase key writes) := ih _
      _ = overlay (erase key base) (erase key ((k, v) :: writes)) := hfirst

theorem erase_ofList [LawfulBEq κ] (key : κ) (writes : List (κ × β)) :
    erase key (ofList writes) = ofList (erase key writes) := erase_overlay key [] writes

end Entries

end PipelineTree
