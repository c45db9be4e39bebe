import PipelineTree.Proofs.Template.Reach

/-!
# Dependence — the parameters that substitution reads

A value reads the parameters of the placeholders in the texts that are searched.  Whatever two bags of
parameters have under other names, they fill the value alike as soon as they bind these to the same values, or
leave them unbound both: the result is the same, and so is the first error on the way
(`Substitution.substitute_congr`).
-/

namespace PipelineTree

open Placeholder

/-- Two bags of parameters bind each of some names to the same value, or leave it unbound both. -/
def Props.BindAlike (names : String → Prop) (params others : Props) : Prop :=
  ∀ name, names name → params.lookup name = others.lookup name

namespace Substitution

/-- A value reads a parameter: a placeholder for it stands in a text that is searched. -/
def Reads (body : Value) (name : String) : Prop := ∃ s, Reaches body s ∧ Occurs name s.toList

variable {params others : Props} {name s : String}

/-! ## Where a parameter is read -/

theorem reads_text_iff : Reads (.text s) name ↔ Occurs name s.toList := by
  constructor
  · rintro ⟨_, ⟨⟩, hoccurs⟩
    exact hoccurs
  · intro hoccurs
    exact ⟨s, .text s, hoccurs⟩

theorem reads_sequence_iff {items : List Value} :
    Reads (.sequence items) name ↔ ∃ item ∈ items, Reads item name := by
  constructor
  · rintro ⟨s, ⟨⟩, hoccurs⟩
    rename_i item hitem hreaches
    exact ⟨item, hitem, s, hreaches, hoccurs⟩
  · rintro ⟨item, hitem, s, hreaches, hoccurs⟩
    exact ⟨s, .item hitem hreaches, hoccurs⟩

theorem reads_mapping_iff {entries : Mapping} :
    Reads (.mapping entries) name ↔ ∃ entry ∈ entries,
      (∃ s, entry.1 = .text s ∧ Occurs name s.toList) ∨ Reads entry.2 name := by
  constructor
  · rintro ⟨s, hreaches, hoccurs⟩
    cases hreaches with
    | key hmem => exact ⟨_, hmem, .inl ⟨s, rfl, hoccurs⟩⟩
    | value hmem hvalue => exact ⟨_, hmem, .inr ⟨s, hvalue, hoccurs⟩⟩
  · rintro ⟨⟨_, value⟩, hmem, ⟨s, rfl, hoccurs⟩ | ⟨s, hreaches, hoccurs⟩⟩
    · exact ⟨s, .key hmem, hoccurs⟩
    · exact ⟨s, .value hmem hreaches, hoccurs⟩

/-! ## Texts -/

theorem parameter_congr (h : params.lookup name = others.lookup name) :
    parameter params name = parameter others name := by
  simp [parameter, h]

theorem piecesText_congr {pieces : List Piece}
    (h : Props.BindAlike (fun name => .parameter name ∈ pieces) params others) :
    piecesText params pieces = piecesText others pieces := by
  induction pieces with
  | nil => rfl
  | cons piece pieces ih =>
    have hpiece : pieceText params piece = pieceText others piece := by
      cases piece with
      | char c => rfl
      | parameter name => simp [pieceText, parameter_congr (h name List.mem_cons_self)]
    have hrest := ih fun name hname => h name (List.mem_cons_of_mem _ hname)
    simp [piecesText, hpiece, hrest]

theorem interpolate_congr (h : Props.BindAlike (fun name => Occurs name s.toList) params others) :
    interpolate params s = interpolate others s := by
  have hpieces := piecesText_congr fun name hname => h name (mem_pieces_iff.1 hname)
  simp [interpolate, hpieces]

theorem substituteText_congr
    (h : Props.BindAlike (fun name => Occurs name s.toList) params others) :
    substituteText params s = substituteText others s := by
  cases hwhole : whole? s.toList with
  | none => simp [substituteText, hwhole, interpolate_congr h]
  | some name =>
    -- The one placeholder of the text is for this parameter.
    have hoccurs : Occurs name s.toList := (whole?_eq_some_iff.1 hwhole).occurs_iff.2 rfl
    simp [substituteText, hwhole, parameter_congr (h name hoccurs)]

theorem substituteKey_congr {key : Value}
    (h : ∀ s, key = .text s → Props.BindAlike (fun name => Occurs name s.toList) params others) :
    substituteKey params key = substituteKey others key := by
  cases key with
  | text s => simp [substituteKey, interpolate_congr (h s rfl)]
  | _ => rfl

/-! ## Values -/

mutual

/-- Substitution depends on the parameters that the value reads, and on no others. -/
theorem substitute_congr {body : Value} (h : Props.BindAlike (Reads body) params others) :
    substitute params body = substitute others body := by
  cases body with
  | text s =>
    refine substituteText_congr ?_
    exact fun name hoccurs => h name (reads_text_iff.2 hoccurs)
  | sequence items =>
    have hitems : substituteItems params items = substituteItems others items := by
      refine substituteItems_congr ?_
      intro item hitem name hreads
      exact h name (reads_sequence_iff.2 ⟨item, hitem, hreads⟩)
    simp [substitute, hitems]
  | mapping entries =>
    have hentries : substituteEntries params entries = substituteEntries others entries := by
      refine substituteEntries_congr ?_
      intro entry hentry name hreads
      exact h name (reads_mapping_iff.2 ⟨entry, hentry, hreads⟩)
    simp [substitute, hentries]
  | _ => rfl

theorem substituteItems_congr {items : List Value}
    (h : ∀ item ∈ items, Props.BindAlike (Reads item) params others) :
    substituteItems params items = substituteItems others items := by
  cases items with
  | nil => rfl
  | cons item items =>
    have hitem := substitute_congr (h item List.mem_cons_self)
    have hitems := substituteItems_congr fun other hother => h other (List.mem_cons_of_mem _ hother)
    simp [substituteItems, hitem, hitems]

theorem substituteEntries_congr {entries : Mapping}
    (h : ∀ entry ∈ entries, Props.BindAlike
      (fun name => (∃ s, entry.1 = .text s ∧ Occurs name s.toList) ∨ Reads entry.2 name)
      params others) :
    substituteEntries params entries = substituteEntries others entries := by
  match entries with
  | [] => rfl
  | (key, value) :: entries =>
    have hfirst := h (key, value) List.mem_cons_self
    have hkey : substituteKey params key = substituteKey others key := by
      refine substituteKey_congr ?_
      exact fun s hs name hoccurs => hfirst name (.inl ⟨s, hs, hoccurs⟩)
    have hvalue : substitute params value = substitute others value :=
      substitute_congr fun name hreads => hfirst name (.inr hreads)
    have hentries :=
      substituteEntries_congr fun other hother => h other (List.mem_cons_of_mem _ hother)
    simp [substituteEntries, hkey, hvalue, hentries]

end

end Substitution

end PipelineTree
