import Mathlib.Data.List.Nodup
import Mathlib.Data.List.Pairwise
import PipelineTree.Value.Basic

/-!
# Entries — what writes leave in a dictionary

Writes under keys that all differ leave exactly themselves, in their order.  Whatever the keys, reading a
text gives the last value written under it, no key or value appears that was not written, and the keys
that are left all differ.
-/

namespace PipelineTree

/-- No two entries have the same key. -/
def Entries.Distinct {β : Type} (entries : List (Value × β)) : Prop :=
  entries.Pairwise fun e f => (e.1 == f.1) = false

namespace Entries

/-! ## Writes under any keys -/

section

variable {κ β : Type} [BEq κ]

theorem overlay_eq_append {base writes : List (κ × β)}
    (h : (base ++ writes).Pairwise fun e f => (e.1 == f.1) = false) :
    overlay base writes = base ++ writes := by
  induction writes generalizing base with
  | nil => simp
  | cons w writes ih =>
    -- The first write is under a fresh key, so it becomes the last entry of the base.
    have hfresh : contains w.1 base = false := by
      rw [contains, List.any_eq_false]
      intro e he
      have hne := (List.pairwise_append.1 h).2.2 e he w (by simp)
      simp [hne]
    have hrest : overlay (base ++ [w]) writes = base ++ [w] ++ writes := by
      apply ih
      simpa using h
    calc
      overlay base (w :: writes) = overlay (insert w.1 w.2 base) writes := rfl
      _ = overlay (base ++ [w]) writes := by rw [insert_of_not_contains hfresh]
      _ = base ++ [w] ++ writes := hrest
      _ = base ++ w :: writes := by simp

/-- Writes under keys that all differ stay as they are. -/
theorem ofList_eq_self {writes : List (κ × β)}
    (h : writes.Pairwise fun e f => (e.1 == f.1) = false) : ofList writes = writes :=
  overlay_eq_append h

/-- An entry under a fresh key can stand behind entries whose keys differ. -/
theorem pairwise_append_fresh {entries : List (κ × β)} {e : κ × β}
    (h : entries.Pairwise fun e f => (e.1 == f.1) = false) (hfresh : contains e.1 entries = false) :
    (entries ++ [e]).Pairwise fun e f => (e.1 == f.1) = false := by
  rw [contains, List.any_eq_false] at hfresh
  refine List.pairwise_append.2 ⟨h, List.pairwise_singleton _ e, ?_⟩
  intro f hf last hlast
  have hsame : last = e := List.mem_singleton.1 hlast
  simpa [hsame] using hfresh f hf

theorem length_insert (key : κ) (value : β) (entries : List (κ × β)) :
    (insert key value entries).length =
      if contains key entries then entries.length else entries.length + 1 := by
  induction entries with
  | nil => simp [contains]
  | cons e rest ih =>
    rcases e with ⟨k, v⟩
    by_cases hhere : (k == key) = true
    · simp [insert, contains, hhere]
    · have hcontains : contains key ((k, v) :: rest) = contains key rest := by
        simp [contains, hhere]
      rw [hcontains]
      by_cases hrest : contains key rest = true
      · simpa [insert, hhere, hrest] using ih
      · simpa [insert, hhere, hrest] using ih

theorem length_overlay_le (base writes : List (κ × β)) :
    (overlay base writes).length ≤ base.length + writes.length := by
  induction writes generalizing base with
  | nil => simp
  | cons w writes ih =>
    have hinsert : (insert w.1 w.2 base).length ≤ base.length + 1 := by
      rw [length_insert]
      split <;> omega
    calc
      (overlay base (w :: writes)).length = (overlay (insert w.1 w.2 base) writes).length := rfl
      _ ≤ (insert w.1 w.2 base).length + writes.length := ih _
      _ ≤ base.length + (w :: writes).length := by
        rw [List.length_cons]
        omega

theorem pairwise_of_length_overlay {base writes : List (κ × β)}
    (hbase : base.Pairwise fun e f => (e.1 == f.1) = false)
    (hlength : (overlay base writes).length = base.length + writes.length) :
    (base ++ writes).Pairwise fun e f => (e.1 == f.1) = false := by
  induction writes generalizing base with
  | nil => simpa using hbase
  | cons w writes ih =>
    have hinsert := length_insert w.1 w.2 base
    have hrest := length_overlay_le (insert w.1 w.2 base) writes
    have hoverlay : (overlay (insert w.1 w.2 base) writes).length =
        base.length + (writes.length + 1) := hlength
    -- If the first write met its key, the others could not make up for the entry that is missing.
    have hfresh : contains w.1 base = false := by
      by_contra hthere
      rw [if_pos (by simpa using hthere)] at hinsert
      omega
    have hgrown := pairwise_append_fresh hbase hfresh
    rw [insert_of_not_contains hfresh] at hoverlay
    simpa using ih hgrown (by simpa [Nat.add_assoc, Nat.add_comm 1] using hoverlay)

/-- No write is lost exactly if all keys differ. -/
theorem length_ofList_eq_iff {writes : List (κ × β)} :
    (ofList writes).length = writes.length ↔
      writes.Pairwise fun e f => (e.1 == f.1) = false := by
  constructor
  · intro hlength
    have hoverlay : (overlay ([] : List (κ × β)) writes).length =
        ([] : List (κ × β)).length + writes.length := by
      simpa [ofList] using hlength
    exact pairwise_of_length_overlay .nil hoverlay
  · intro hdistinct
    rw [ofList_eq_self hdistinct]

/-- A write leaves other entries alone, and an entry that it changes keeps its key. -/
theorem of_mem_insert {key : κ} {value : β} {entries : List (κ × β)} {e : κ × β}
    (he : e ∈ insert key value entries) :
    e ∈ entries ∨ e.2 = value ∧ (e.1 = key ∨ ∃ f ∈ entries, f.1 = e.1) := by
  induction entries with
  | nil =>
    have hnew : e = (key, value) := by simpa using he
    exact .inr ⟨by rw [hnew], .inl (by rw [hnew])⟩
  | cons f rest ih =>
    rcases f with ⟨k, v⟩
    rw [insert] at he
    split at he
    · rcases List.mem_cons.1 he with rfl | hrest
      · exact .inr ⟨rfl, .inr ⟨(k, v), by simp, rfl⟩⟩
      · exact .inl (by simp [hrest])
    · rcases List.mem_cons.1 he with rfl | hrest
      · exact .inl (by simp)
      · rcases ih hrest with hold | ⟨hvalue, hkey | ⟨f, hf, hkey⟩⟩
        · exact .inl (by simp [hold])
        · exact .inr ⟨hvalue, .inl hkey⟩
        · exact .inr ⟨hvalue, .inr ⟨f, by simp [hf], hkey⟩⟩

theorem of_mem_overlay {base writes : List (κ × β)} {e : κ × β} (he : e ∈ overlay base writes) :
    (∃ f ∈ base ++ writes, f.1 = e.1) ∧ ∃ f ∈ base ++ writes, f.2 = e.2 := by
  induction writes generalizing base with
  | nil =>
    have hbase : e ∈ base ++ [] := by simpa using he
    exact ⟨⟨e, hbase, rfl⟩, e, hbase, rfl⟩
  | cons w writes ih =>
    -- What is found after the first write was there before, or it comes from that write.
    have hfirst : ∀ f ∈ insert w.1 w.2 base ++ writes,
        (∃ g ∈ base ++ w :: writes, g.1 = f.1) ∧ ∃ g ∈ base ++ w :: writes, g.2 = f.2 := by
      intro f hf
      rcases List.mem_append.1 hf with hinsert | hwrites
      · rcases of_mem_insert hinsert with hold | ⟨hvalue, hkey | ⟨g, hg, hkey⟩⟩
        · exact ⟨⟨f, by simp [hold], rfl⟩, f, by simp [hold], rfl⟩
        · exact ⟨⟨w, by simp, hkey.symm⟩, w, by simp, hvalue.symm⟩
        · exact ⟨⟨g, by simp [hg], hkey⟩, w, by simp, hvalue.symm⟩
      · exact ⟨⟨f, by simp [hwrites], rfl⟩, f, by simp [hwrites], rfl⟩
    rcases ih (show e ∈ overlay (insert w.1 w.2 base) writes from he) with
      ⟨⟨f, hf, hkey⟩, g, hg, hvalue⟩
    rcases (hfirst f hf).1 with ⟨f', hf', hkey'⟩
    rcases (hfirst g hg).2 with ⟨g', hg', hvalue'⟩
    exact ⟨⟨f', hf', hkey'.trans hkey⟩, g', hg', hvalue'.trans hvalue⟩

theorem key_of_mem_ofList {writes : List (κ × β)} {e : κ × β} (he : e ∈ ofList writes) :
    ∃ f ∈ writes, f.1 = e.1 := by
  simpa using (of_mem_overlay he).1

theorem value_of_mem_ofList {writes : List (κ × β)} {e : κ × β} (he : e ∈ ofList writes) :
    ∃ f ∈ writes, f.2 = e.2 := by
  simpa using (of_mem_overlay he).2

/-! ## Keys stay apart -/

theorem pairwise_insert {key : κ} {value : β} {entries : List (κ × β)}
    (h : entries.Pairwise fun e f => (e.1 == f.1) = false) :
    (insert key value entries).Pairwise fun e f => (e.1 == f.1) = false := by
  by_cases hthere : contains key entries = true
  · -- The keys are those that were there before.
    have hsame : (insert key value entries).map (·.1) = entries.map (·.1) :=
      keys_insert_of_contains hthere
    have hkeys : (entries.map (·.1)).Pairwise fun k l => (k == l) = false := List.pairwise_map.2 h
    exact List.pairwise_map.1 (hsame ▸ hkeys)
  · have hfresh : contains key entries = false := by simpa using hthere
    rw [insert_of_not_contains hfresh]
    exact pairwise_append_fresh h hfresh

theorem pairwise_overlay {base writes : List (κ × β)}
    (h : base.Pairwise fun e f => (e.1 == f.1) = false) :
    (overlay base writes).Pairwise fun e f => (e.1 == f.1) = false := by
  induction writes generalizing base with
  | nil => exact h
  | cons w writes ih => exact ih (pairwise_insert h)

/-- Whatever is written, the keys of a dictionary differ. -/
theorem pairwise_ofList (writes : List (κ × β)) :
    (ofList writes).Pairwise fun e f => (e.1 == f.1) = false :=
  pairwise_overlay .nil

/-- If each write is read back under a key, then of several writes under it the last one is. -/
theorem lookup_overlay_of {key : κ}
    (hinsert : ∀ (w : κ × β) (entries : List (κ × β)),
      (insert w.1 w.2 entries).lookup key = ([w].lookup key).or (entries.lookup key))
    (base writes : List (κ × β)) :
    (overlay base writes).lookup key = (writes.reverse.lookup key).or (base.lookup key) := by
  induction writes generalizing base with
  | nil => simp
  | cons w writes ih =>
    calc
      (overlay base (w :: writes)).lookup key =
          (overlay (insert w.1 w.2 base) writes).lookup key := rfl
      _ = (writes.reverse.lookup key).or ((insert w.1 w.2 base).lookup key) := ih _
      _ = ((w :: writes).reverse.lookup key).or (base.lookup key) := by
        rw [hinsert, List.reverse_cons, List.lookup_append, Option.or_assoc]

end

/-! ## Reading text keys -/

theorem text_beq_eq_false {key : Value} {s : String} (h : key ≠ .text s) :
    (.text s == key) = false := by
  rw [Bool.eq_false_iff]
  exact mt Value.text_beq_iff.1 h

theorem beq_text_eq_false {key : Value} {s : String} (h : key ≠ .text s) :
    (key == .text s) = false := by
  rw [Bool.eq_false_iff]
  exact mt Value.beq_text_iff.1 h

/-- Where items get keys that all differ, two of them never get the same text. -/
theorem ne_text_of_pairwise {γ : Type} {key : γ → Value} {items : List γ}
    (h : items.Pairwise fun a b => (key a == key b) = false) {a b : γ} (ha : a ∈ items)
    (hb : b ∈ items) (hne : a ≠ b) {s : String} (hkey : key a = .text s) : key b ≠ .text s := by
  -- Equality of keys is symmetric at texts, and that is all that is used.
  have htexts : items.Pairwise fun a b => ¬(key a = .text s ∧ key b = .text s) := by
    refine h.imp ?_
    rintro first second hdistinct ⟨hfirst, hsecond⟩
    simp [hfirst, hsecond] at hdistinct
  have hsymmetric : Std.Symm fun a b : γ => ¬(key a = .text s ∧ key b = .text s) :=
    ⟨fun _ _ hnot hboth => hnot hboth.symm⟩
  intro hother
  exact htexts.forall ha hb hne ⟨hkey, hother⟩

variable {β : Type}

theorem lookup_cons_text (key : Value) (value : β) (s : String) (entries : List (Value × β)) :
    ((key, value) :: entries).lookup (.text s) =
      if key == .text s then some value else entries.lookup (.text s) := by
  by_cases hkey : key = .text s
  · simp [List.lookup_cons, hkey]
  · simp [List.lookup_cons, text_beq_eq_false hkey, beq_text_eq_false hkey]

theorem lookup_insert_text (key : Value) (value : β) (s : String) (entries : List (Value × β)) :
    (insert key value entries).lookup (.text s) =
      if key == .text s then some value else entries.lookup (.text s) := by
  induction entries with
  | nil => exact lookup_cons_text key value s []
  | cons e rest ih =>
    rcases e with ⟨k, v⟩
    rw [insert, lookup_cons_text]
    by_cases hhere : (k == key) = true
    · -- The entry that is overwritten is read exactly if the write is to the text that is read.
      rw [if_pos hhere, lookup_cons_text]
      by_cases hk : k = .text s
      · subst hk
        rw [Value.text_beq_iff.1 hhere]
        simp
      · have hkey : key ≠ .text s := by
          rintro rfl
          exact hk (Value.beq_text_iff.1 hhere)
        simp [beq_text_eq_false hk, beq_text_eq_false hkey]
    · rw [if_neg hhere, lookup_cons_text, ih]
      by_cases hk : k = .text s
      · subst hk
        have hkey : key ≠ .text s := by
          rintro rfl
          simp at hhere
        simp [beq_text_eq_false hkey]
      · simp [beq_text_eq_false hk]

/-- The last write under a text counts, and what was there before if there is none. -/
theorem lookup_overlay_text (base writes : List (Value × β)) (s : String) :
    (overlay base writes).lookup (.text s) =
      (writes.reverse.lookup (.text s)).or (base.lookup (.text s)) := by
  refine lookup_overlay_of ?_ base writes
  intro w entries
  rw [lookup_insert_text, lookup_cons_text]
  split <;> simp

theorem lookup_ofList_text (writes : List (Value × β)) (s : String) :
    (ofList writes).lookup (.text s) = writes.reverse.lookup (.text s) := by
  rw [ofList, lookup_overlay_text]
  simp

theorem lookup_text_isSome_iff {entries : List (Value × β)} {s : String} :
    (entries.lookup (.text s)).isSome = true ↔ ∃ e ∈ entries, e.1 = .text s := by
  rw [List.lookup_isSome_iff]
  refine exists_congr fun e => and_congr_right fun _ => ?_
  exact Value.text_beq_iff

theorem mem_of_lookup_text {entries : List (Value × β)} {s : String} {value : β}
    (h : entries.lookup (.text s) = some value) : (.text s, value) ∈ entries := by
  induction entries with
  | nil => cases h
  | cons e rest ih =>
    rcases e with ⟨key, v⟩
    rw [lookup_cons_text] at h
    split at h
    · rename_i hkey
      rw [Value.beq_text_iff.1 hkey, Option.some.inj h]
      exact List.mem_cons_self
    · exact List.mem_cons_of_mem _ (ih h)

/-- Where keys differ, each entry under a text is the one that is read. -/
theorem lookup_text_of_mem {entries : List (Value × β)} (hdistinct : Distinct entries) {s : String}
    {value : β} (h : (.text s, value) ∈ entries) : entries.lookup (.text s) = some value := by
  have hsome := lookup_text_isSome_iff.2 ⟨_, h, rfl⟩
  rcases Option.isSome_iff_exists.1 hsome with ⟨other, hother⟩
  by_contra hne
  have hentries : (Value.text s, value) ≠ (Value.text s, other) := by
    rintro ⟨⟩
    exact hne hother
  have hkeys : entries.Pairwise fun e f => (e.1 == f.1) = false := hdistinct
  exact ne_text_of_pairwise hkeys h (mem_of_lookup_text hother) hentries rfl rfl

/-! ## Reading names -/

section

variable {key other : String} {value : β} {entries : List (String × β)}

theorem lookup_cons_of_ne (h : other ≠ key) :
    ((key, value) :: entries).lookup other = entries.lookup other := by
  have hne : (other == key) = false := beq_eq_false_iff_ne.2 h
  simp [List.lookup_cons, hne]

theorem lookup_insert :
    (insert key value entries).lookup other =
      if other = key then some value else entries.lookup other := by
  induction entries with
  | nil =>
    by_cases h : other = key
    · simp [h]
    · simp [h, lookup_cons_of_ne h]
  | cons e rest ih =>
    rcases e with ⟨k, v⟩
    by_cases hk : k = key
    · by_cases h : other = key
      · simp [insert, hk, h]
      · simp [insert, hk, h, lookup_cons_of_ne h]
    · by_cases h : other = k
      · simp [insert, hk, h]
      · simp [insert, hk, lookup_cons_of_ne h, ih]

/-- The last write under a name counts, and what was there before if there is none. -/
theorem lookup_overlay (base writes : List (String × β)) (name : String) :
    (overlay base writes).lookup name = (writes.reverse.lookup name).or (base.lookup name) := by
  refine lookup_overlay_of ?_ base writes
  rintro ⟨key, value⟩ entries
  by_cases hname : name = key
  · simp [lookup_insert, hname]
  · simp [lookup_insert, lookup_cons_of_ne hname, hname]

/-- Entries that are filtered out by name make no difference to the names that are kept. -/
theorem lookup_filter {kept : String → Bool} (hkept : kept key = true) :
    (entries.filter fun e => kept e.1).lookup key = entries.lookup key := by
  induction entries with
  | nil => rfl
  | cons e rest ih =>
    rcases e with ⟨k, v⟩
    by_cases hk : key = k
    · subst hk
      simp [hkept]
    · by_cases hother : kept k = true
      · simp [hother, lookup_cons_of_ne hk, ih]
      · simp [hother, lookup_cons_of_ne hk, ih]

theorem contains_iff : contains key entries = true ↔ entries.lookup key ≠ none := by
  induction entries with
  | nil => simp [contains]
  | cons e rest ih =>
    rcases e with ⟨k, v⟩
    by_cases h : key = k
    · simp [contains, h]
    · have hne : ¬k = key := fun heq => h heq.symm
      have hrest : contains key ((k, v) :: rest) = contains key rest := by
        simp [contains, hne]
      rw [hrest, ih, lookup_cons_of_ne h]

theorem mem_of_lookup (h : entries.lookup key = some value) : (key, value) ∈ entries := by
  rcases List.lookup_eq_some_iff.1 h with ⟨before, after, rfl, -⟩
  exact List.mem_append_right _ List.mem_cons_self

theorem lookup_of_mem (hdistinct : (entries.map (·.1)).Nodup) (h : (key, value) ∈ entries) :
    entries.lookup key = some value := by
  rcases List.append_of_mem h with ⟨before, after, rfl⟩
  refine List.lookup_eq_some_iff.2 ⟨before, after, rfl, ?_⟩
  intro e he
  rw [List.map_append, List.map_cons] at hdistinct
  have hother := List.disjoint_of_nodup_append hdistinct (List.mem_map_of_mem he)
  have hne : key ≠ e.1 := by
    rintro rfl
    exact hother List.mem_cons_self
  exact bne_iff_ne.2 hne

end

end Entries

/-! ## Values without equal keys -/

/-- In no mapping of the value, however deep, are two keys equal. -/
inductive Value.Proper : Value → Prop where
  | null : Proper .null
  | bool (b : Bool) : Proper (.bool b)
  | number (n : Number) : Proper (.number n)
  | text (s : String) : Proper (.text s)
  | sequence {items : List Value} : (∀ item ∈ items, Proper item) → Proper (.sequence items)
  | mapping {entries : Mapping} :
      Entries.Distinct entries → (∀ entry ∈ entries, Proper entry.1) →
        (∀ entry ∈ entries, Proper entry.2) → Proper (.mapping entries)
  | tagged (tag : String) {value : Value} : Proper value → Proper (.tagged tag value)

end PipelineTree
