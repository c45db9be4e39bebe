import PipelineTree.Proofs.Template.Filling
import PipelineTree.Proofs.Value.Entries
import PipelineTree.Proofs.Value.Pairing

/-!
# Clash — keys that become the same

Substitution fills keys as well, and writes the entries of a mapping one after the other under what their keys
have become.  Two entries whose keys become the same text are one entry afterwards: it has the place of the
first and the value of the last.  A substitution that succeeds is a filling in which all entries are kept, in
their order, exactly if no two keys of a mapping that is searched become the same
(`Substitution.substitute_keeps_iff`).  Whether they do depends on the parameters of each use;
`Substitution.filled_entry_lost` is a body that loses an entry.
-/

namespace PipelineTree

open Placeholder

namespace Substitution

/-- Two different texts that are keys become the same when they are filled. -/
def ClashingKeys (params : Props) (entries : Mapping) : Prop :=
  ∃ first second filled : String, first ≠ second ∧
    (∃ value, (.text first, value) ∈ entries) ∧ (∃ value, (.text second, value) ∈ entries) ∧
      FilledText params first.toList filled.toList ∧ FilledText params second.toList filled.toList

/-- Keys clash in some mapping that substitution comes to. -/
inductive Clashes (params : Props) : Value → Prop where
  | here {entries : Mapping} : ClashingKeys params entries → Clashes params (.mapping entries)
  | value {entries : Mapping} {key value : Value} :
      (key, value) ∈ entries → Clashes params value → Clashes params (.mapping entries)
  | item {items : List Value} {item : Value} :
      item ∈ items → Clashes params item → Clashes params (.sequence items)

variable {params : Props} {gather : Mapping → Mapping} {entries others : Mapping}

/-! ## The keys of a filled mapping -/

/-- The key that a key becomes, or the key itself if it cannot be filled. -/
def keyFor (params : Props) (key : Value) : Value := (substituteKey params key).toOption.getD key

theorem FilledKey.keyFor_eq {key filled : Value} (h : FilledKey params key filled) :
    keyFor params key = filled := by
  simp [keyFor, substituteKey_eq_ok_iff.2 h, Except.toOption]

theorem filledKey_of_mem (h : List.Forall₂ (FilledEntry params gather) entries others)
    {entry : Value × Value} (hmem : entry ∈ entries) :
    FilledKey params entry.1 (keyFor params entry.1) := by
  rcases exists_of_mem_left h hmem with ⟨_, -, ⟨hkey, -⟩⟩
  rwa [hkey.keyFor_eq]

theorem distinct_filled_iff (h : List.Forall₂ (FilledEntry params gather) entries others) :
    Entries.Distinct others ↔
      entries.Pairwise fun e f => (keyFor params e.1 == keyFor params f.1) = false := by
  have hkeys : others.map Prod.fst = entries.map fun e => keyFor params e.1 := by
    induction h with
    | nil => rfl
    | cons hfirst _ ih =>
      rcases hfirst with ⟨hkey, -⟩
      simp [ih, hkey.keyFor_eq]
  calc
    Entries.Distinct others ↔ (others.map Prod.fst).Pairwise fun k l => (k == l) = false := by
      rw [List.pairwise_map, Entries.Distinct]
    _ ↔ (entries.map fun e => keyFor params e.1).Pairwise fun k l => (k == l) = false := by
      rw [hkeys]
    _ ↔ entries.Pairwise fun e f => (keyFor params e.1 == keyFor params f.1) = false :=
      List.pairwise_map

/-- What keys that differ become is different, unless they clash. -/
theorem distinct_filled_iff_not_clashing (hdistinct : Entries.Distinct entries)
    (h : List.Forall₂ (FilledEntry params gather) entries others) :
    Entries.Distinct others ↔ ¬ClashingKeys params entries := by
  rw [distinct_filled_iff h]
  constructor
  · rintro hkept ⟨first, second, filled, hne, ⟨value, hvalue⟩, ⟨other, hother⟩, hfirst, hsecond⟩
    have hentries : ((.text first, value) : Value × Value) ≠ (.text second, other) := by simp [hne]
    have hfirstKey : keyFor params (.text first) = .text filled := (FilledKey.text hfirst).keyFor_eq
    have hsecondKey : keyFor params (.text second) = .text filled := (FilledKey.text hsecond).keyFor_eq
    exact Entries.ne_text_of_pairwise hkept hvalue hother hentries hfirstKey hsecondKey
  · intro hnone
    refine hdistinct.imp_of_mem ?_
    rintro ⟨first, value⟩ ⟨second, other⟩ hvalue hother hne
    have hfirst := filledKey_of_mem h hvalue
    have hsecond := filledKey_of_mem h hother
    generalize keyFor params first = firstKey at hfirst ⊢
    generalize keyFor params second = secondKey at hsecond ⊢
    -- Texts stay texts, and other keys stay what they are.
    cases hfirst with
    | @text s filled htext =>
      cases hsecond with
      | @text t filled' htext' =>
        have hst : s ≠ t := by simpa using hne
        have hfilled : filled ≠ filled' := by
          rintro rfl
          exact hnone ⟨s, t, filled, hst, ⟨value, hvalue⟩, ⟨other, hother⟩, htext, htext'⟩
        simpa using hfilled
      | other hnot => exact Entries.text_beq_eq_false (hnot filled)
    | other hnot =>
      cases hsecond with
      | @text t filled' _ => exact Entries.beq_text_eq_false (hnot filled')
      | other _ => exact hne

/-! ## Values -/

theorem Filled.keeps {body filled : Value} (h : Filled params Entries.ofList body filled)
    (hproper : body.Proper) (hnone : ¬Clashes params body) : Filled params id body filled := by
  -- Where no keys clash the gathered entries are the filled ones, at every level.
  induction hproper generalizing filled with
  | null =>
    cases h
    exact .null
  | bool b =>
    cases h
    exact .bool b
  | number n =>
    cases h
    exact .number n
  | text s =>
    cases h with
    | whole hwhole hvalue => exact .whole hwhole hvalue
    | woven hnot htext => exact .woven hnot htext
  | tagged tag _ _ =>
    cases h
    exact .tagged tag _
  | sequence _ ih =>
    rcases filled_sequence_iff.1 h with ⟨others, hitems, rfl⟩
    refine .sequence (forall₂_of_mem hitems ?_)
    intro item hmem other hitem
    exact ih item hmem hitem fun hclash => hnone (.item hmem hclash)
  | mapping hdistinct _ _ _ ih =>
    rcases filled_mapping_iff.1 h with ⟨others, hentries, rfl⟩
    have hothers : Entries.Distinct others :=
      (distinct_filled_iff_not_clashing hdistinct hentries).2 fun hclash => hnone (.here hclash)
    rw [Entries.ofList_eq_self hothers]
    refine filled_mapping_iff.2 ⟨others, forall₂_of_mem hentries ?_, rfl⟩
    rintro ⟨key, value⟩ hmem _ ⟨hkey, hvalue⟩
    exact .entry hkey (ih _ hmem hvalue fun hclash => hnone (.value hmem hclash))

/-- Entries that are written, and are as many as before, are all kept. -/
theorem eq_of_kept (hkept : List.Forall₂ (FilledEntry params id) entries others) {written : Mapping}
    (hwritten : List.Forall₂ (FilledEntry params Entries.ofList) entries written)
    (heq : others = Entries.ofList written) : Entries.Distinct written ∧ others = written := by
  have hlength : (Entries.ofList written).length = written.length := by
    rw [← heq, ← hkept.length_eq, hwritten.length_eq]
  have hdistinct : Entries.Distinct written := Entries.length_ofList_eq_iff.1 hlength
  exact ⟨hdistinct, heq.trans (Entries.ofList_eq_self hdistinct)⟩

theorem Clashes.not_filled {body filled : Value} (hclash : Clashes params body) (hproper : body.Proper)
    (h : Filled params Entries.ofList body filled) : ¬Filled params id body filled := by
  induction hclash generalizing filled with
  | here hkeys =>
    intro hkept
    rcases filled_mapping_iff.1 h with ⟨written, hwritten, rfl⟩
    rcases filled_mapping_iff.1 hkept with ⟨others, hothers, heq⟩
    cases hproper with
    | mapping hdistinct _ _ =>
      have hsame := eq_of_kept hothers hwritten (Value.mapping.inj heq).symm
      exact (distinct_filled_iff_not_clashing hdistinct hwritten).1 hsame.1 hkeys
  | @value entries key value hmem _ ih =>
    intro hkept
    rcases filled_mapping_iff.1 h with ⟨written, hwritten, rfl⟩
    rcases filled_mapping_iff.1 hkept with ⟨others, hothers, heq⟩
    -- Both fillings have the same entries, so that the entry with the clash in it is filled to one value.
    have hsame := eq_of_kept hothers hwritten (Value.mapping.inj heq).symm
    rw [hsame.2] at hothers
    rcases exists_of_mem_left (forall₂_and hwritten hothers) hmem with ⟨_, -, ⟨-, hvalue⟩, ⟨-, hvalue'⟩⟩
    cases hproper with
    | mapping _ _ hvalues => exact ih (hvalues _ hmem) hvalue hvalue'
  | @item items item hmem _ ih =>
    intro hkept
    rcases filled_sequence_iff.1 h with ⟨written, hwritten, rfl⟩
    rcases filled_sequence_iff.1 hkept with ⟨others, hothers, heq⟩
    cases heq
    rcases exists_of_mem_left (forall₂_and hwritten hothers) hmem with ⟨_, -, hitem, hitem'⟩
    cases hproper with
    | sequence hitems => exact ih (hitems _ hmem) hitem hitem'

/--
A substitution that succeeds keeps all entries of a body, in their order and under their filled keys, exactly
if no keys clash in it; and a mapping keeps the number of its entries exactly if no keys clash in itself.
-/
theorem substitute_keeps_iff {params : Props} {body filled : Value} (hproper : body.Proper)
    (hsubstitute : substitute params body = .ok filled) :
    (Filled params id body filled ↔ ¬Clashes params body) ∧
      ∀ entries, body = .mapping entries → ∃ written, filled = .mapping written ∧
        (written.length = entries.length ↔ ¬ClashingKeys params entries) := by
  have hfilled := substitute_eq_ok_iff.1 hsubstitute
  refine ⟨⟨fun hkept hclash => hclash.not_filled hproper hfilled hkept, hfilled.keeps hproper⟩, ?_⟩
  rintro entries rfl
  rcases filled_mapping_iff.1 hfilled with ⟨others, hentries, rfl⟩
  refine ⟨_, rfl, ?_⟩
  cases hproper with
  | mapping hdistinct _ _ =>
    rw [hentries.length_eq, Entries.length_ofList_eq_iff]
    exact distinct_filled_iff_not_clashing hdistinct hentries

/-! ## A body that loses an entry -/

/-- A key that is a placeholder. -/
def keyPlaceholder : String := "$\x7b\x7b params.key \x7d\x7d"

/-- Settings with a name that a use may choose. -/
def settings : Mapping := [(.text "level", .text "all"), (.text keyPlaceholder, .text "none")]

theorem proper_settings : (Value.mapping settings).Proper := by
  refine .mapping (by simp [Entries.Distinct, settings, keyPlaceholder]) ?_ ?_
  · simpa [settings] using And.intro (Value.Proper.text "level") (.text keyPlaceholder)
  · simpa [settings] using And.intro (Value.Proper.text "all") (.text "none")

theorem isWritten_keyPlaceholder : IsWritten "key" keyPlaceholder.toList :=
  isWritten_spaced ⟨'k', ['e', 'y'], rfl, rfl, by simp [isNameRest]⟩

theorem filledText_keyPlaceholder (name : String) :
    FilledText [("key", .text name)] keyPlaceholder.toList name.toList := by
  have hname : List.lookup "key" [("key", Value.text name)] = some (.text name) := rfl
  have hfilled : FilledText [("key", .text name)] (keyPlaceholder.toList ++ []) (name.toList ++ []) :=
    .placeholder isWritten_keyPlaceholder hname rfl .nil
  simpa using hfilled

theorem substitute_settings (name : String) :
    substitute [("key", .text name)] (.mapping settings) =
      .ok (.mapping (Entries.ofList [(.text "level", .text "all"), (.text name, .text "none")])) := by
  have hlevel := substituteKey_of_not_mem [("key", .text name)] (show '$' ∉ "level".toList by decide)
  have hall := substituteText_of_not_mem [("key", .text name)] (show '$' ∉ "all".toList by decide)
  have hnone := substituteText_of_not_mem [("key", .text name)] (show '$' ∉ "none".toList by decide)
  have hkey := substituteKey_eq_ok_iff.2 (.text (filledText_keyPlaceholder name))
  simp only [settings, substitute, substituteEntries, hlevel, hall, hnone, hkey, Run.ok_bind]
  rfl

theorem substitute_keeps_iff_settings :
    (Value.mapping settings).Proper ∧
      substitute [("key", .text "strict")] (.mapping settings) =
        .ok (.mapping [(.text "level", .text "all"), (.text "strict", .text "none")]) ∧
      ¬ClashingKeys [("key", .text "strict")] settings := by
  have hsubstitute := substitute_settings "strict"
  rcases (substitute_keeps_iff proper_settings hsubstitute).2 settings rfl with
    ⟨written, hwritten, hlength⟩
  cases hwritten
  exact ⟨proper_settings, hsubstitute, hlength.1 rfl⟩

/-- If the name is one of the keys that are there, one of the two entries is lost. -/
theorem filled_entry_lost :
    (Value.mapping settings).Proper ∧ ClashingKeys [("key", .text "level")] settings ∧
      substitute [("key", .text "level")] (.mapping settings) =
        .ok (.mapping [(.text "level", .text "none")]) := by
  have hlevel := interpolate_eq_ok_iff.1
    (interpolate_of_not_mem [("key", .text "level")] (show '$' ∉ "level".toList by decide))
  exact ⟨proper_settings, ⟨"level", keyPlaceholder, "level", by decide, ⟨.text "all", by simp [settings]⟩,
    ⟨.text "none", by simp [settings]⟩, hlevel, filledText_keyPlaceholder "level"⟩,
    substitute_settings "level"⟩

end Substitution

end PipelineTree
