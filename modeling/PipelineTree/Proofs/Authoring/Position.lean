import PipelineTree.Proofs.Authoring.Denotation

/-!
# Position — places for children in a value

A `ChildPosition` is a value with one of the places in it where children may stand left open.  Only some
places are such: the items of a sequence, the body of a group, and the `children` of a primitive.

`Replaces.fill` says that what stands at such a place can be replaced: if the nodes it denotes are
related to those of its replacement, then so are the nodes of the values around them.
-/

namespace PipelineTree

namespace Authoring

/-! ## Positions -/

/-- A place for children in a value, as the value around it. -/
inductive ChildPosition where
  | hole
  | item (before : List Value) (inner : ChildPosition) (after : List Value)
  | group (key : Value) (isGroup : key.text? = some "group") (inner : ChildPosition)
  | children (kindKey : Value) (kind : Kind) (isKind : kindKey.text? = some kind.name)
      (before : Mapping) (key : Value) (isChildren : key.text? = some "children")
      (inner : ChildPosition) (after : Mapping)
      (isLast : ∀ field ∈ after, field.1.text? ≠ some "children")

namespace ChildPosition

/-- The value around a position, with something at the position. -/
def fill : ChildPosition → Value → Value
  | .hole, value => value
  | .item before inner after, value => .sequence (before ++ inner.fill value :: after)
  | .group key _ inner, value => .mapping [(key, inner.fill value)]
  | .children kindKey _ _ before key _ inner after _, value =>
    .mapping [(kindKey, .mapping (before ++ (key, inner.fill value) :: after))]

/-- Whether there is a node around a position. -/
def BelowNode : ChildPosition → Prop
  | .hole => False
  | .item _ inner _ => inner.BelowNode
  | .group .. => True
  | .children .. => True

end ChildPosition

/-! ## Replacing one value by another -/

/-- Whenever one value denotes nodes, so does another, and the nodes are related in pairs. -/
def Replaces (templates : Templates) (Q : Node TemplateUse → Node TemplateUse → Prop)
    (value value' : Value) : Prop :=
  ∀ nodes, Denotes templates value nodes →
    ∃ nodes', Denotes templates value' nodes' ∧ List.Forall₂ Q nodes nodes'

/-- A relation of nodes that holds of a node and itself, and of nodes with related children. -/
structure IsCongruence (Q : Node TemplateUse → Node TemplateUse → Prop) : Prop where
  refl : ∀ node, Q node node
  group : ∀ {nodes nodes'}, List.Forall₂ Q nodes nodes' → Q (.group nodes) (.group nodes')
  primitive : ∀ {nodes nodes'} (kind : Kind) (props : Props), List.Forall₂ Q nodes nodes' →
    Q (.primitive kind props nodes) (.primitive kind props nodes')

variable {templates : Templates} {Q R : Node TemplateUse → Node TemplateUse → Prop}
  {value value' : Value}

theorem Replaces.item (hrefl : ∀ node, Q node node) (h : Replaces templates Q value value')
    (before after : List Value) :
    Replaces templates Q (.sequence (before ++ value :: after))
      (.sequence (before ++ value' :: after)) := by
  have hsame : ∀ nodes, List.Forall₂ Q nodes nodes := by
    intro nodes
    exact List.forall₂_same.2 fun node _ => hrefl node
  -- The induction is on the items in front, which denote the same nodes before and after.
  induction before with
  | nil =>
    rintro _ (_ | _ | _ | ⟨hvalue, hafter⟩)
    rcases h _ hvalue with ⟨nodes', hvalue', hnodes⟩
    exact ⟨_, .cons hvalue' hafter, List.rel_append hnodes (hsame _)⟩
  | cons item before ih =>
    rintro _ (_ | _ | _ | ⟨hitem, hrest⟩)
    rcases ih _ hrest with ⟨others', hrest', hothers⟩
    exact ⟨_, .cons hitem hrest', List.rel_append (hsame _) hothers⟩

theorem text?_ne_group {key : Value} {kind : Kind} (hkind : key.text? = some kind.name) :
    key.text? ≠ some "group" := by
  rw [hkind]
  intro hgroup
  exact kind.name_ne_group (Option.some.inj hgroup)

theorem Replaces.group (hgroup : ∀ {nodes nodes'}, List.Forall₂ Q nodes nodes' →
      R (.group nodes) (.group nodes')) (h : Replaces templates Q value value') {key : Value}
    (hkey : key.text? = some "group") :
    Replaces templates R (.mapping [(key, value)]) (.mapping [(key, value')]) := by
  intro nodes hnodes
  rcases hnodes.of_group (List.mem_singleton_self _) hkey with ⟨inner, hvalue, rfl⟩
  rcases h _ hvalue with ⟨nodes', hvalue', hinner⟩
  exact ⟨_, .group hkey hvalue', .cons (hgroup hinner) .nil⟩

theorem Children.eq_of_last {before after : Mapping} {key children : Value}
    (hkey : key.text? = some "children") (hafter : ∀ field ∈ after, field.1.text? ≠ some "children")
    (h : Children (before ++ (key, value) :: after) children) : children = value := by
  generalize hfields : before ++ (key, value) :: after = fields at h
  cases h with
  | absent habsent => exact absurd hkey (habsent (key, value) (by simp [← hfields]))
  | @last before' after' key' _ hkey' hafter' =>
    -- The two last entries are the same one, since neither is followed by a further one.
    rcases List.append_eq_append_iff.1 hfields with ⟨between, -, hrest⟩ | ⟨between, -, hrest⟩
    · cases between with
      | nil =>
        cases hrest
        rfl
      | cons field between =>
        cases hrest
        exact absurd hkey' (hafter (key', children) (by simp))
    · cases between with
      | nil =>
        cases hrest
        rfl
      | cons field between =>
        cases hrest
        exact absurd hkey (hafter' (key, value) (by simp))

theorem Named.replace {before after : Mapping} {key : Value} {name : String} {named : Props}
    (hkey : key.text? = some name) (h : Named (before ++ (key, value) :: after) named)
    (value' : Value) :
    ∃ named', Named (before ++ (key, value') :: after) named' ∧
      Entries.erase name named = Entries.erase name named' := by
  induction before generalizing named with
  | nil =>
    rcases List.forall₂_cons_left_iff.1 h with ⟨⟨name', _⟩, others, ⟨hname, rfl⟩, hothers, rfl⟩
    obtain rfl : name' = name := Option.some.inj (hname.symm.trans hkey)
    refine ⟨(name', value') :: others, .cons ⟨hkey, rfl⟩ hothers, ?_⟩
    rw [Entries.erase_cons_self, Entries.erase_cons_self]
  | cons field before ih =>
    rcases List.forall₂_cons_left_iff.1 h with ⟨property, others, hproperty, hothers, rfl⟩
    rcases ih hothers with ⟨others', hothers', herase⟩
    refine ⟨property :: others', .cons hproperty hothers', ?_⟩
    simp only [Entries.erase, List.filter_cons] at herase ⊢
    rw [herase]

theorem Replaces.children (hprimitive : ∀ {nodes nodes'} (kind : Kind) (props : Props),
      List.Forall₂ Q nodes nodes' → R (.primitive kind props nodes) (.primitive kind props nodes'))
    (h : Replaces templates Q value value') {kindKey key : Value} {kind : Kind}
    {before after : Mapping} (hkind : kindKey.text? = some kind.name)
    (hkey : key.text? = some "children")
    (hafter : ∀ field ∈ after, field.1.text? ≠ some "children") :
    Replaces templates R (.mapping [(kindKey, .mapping (before ++ (key, value) :: after))])
      (.mapping [(kindKey, .mapping (before ++ (key, value') :: after))]) := by
  intro nodes hnodes
  cases hnodes with
  | group hgroup => exact absurd hgroup (text?_ne_group hkind)
  | @primitive _ children kind' _ named nodes hkind' hnamed hchildren hvalue =>
    -- The entry for the children is the only one that changes, and it is not kept as a property.
    cases hchildren.eq_of_last hkey hafter
    rcases h _ hvalue with ⟨nodes', hvalue', hnodes⟩
    rcases hnamed.replace hkey value' with ⟨named', hnamed', herase⟩
    refine ⟨_, .primitive hkind' hnamed' (.last hkey hafter) hvalue', .cons ?_ .nil⟩
    rw [Entries.erase_ofList, Entries.erase_ofList, herase]
    exact hprimitive kind' _ hnodes
  | use huse =>
    exact absurd (Option.some.inj (hkind.symm.trans huse.text?_key)) kind.name_ne_use

/-- What stands at a child position can be replaced. -/
theorem Replaces.fill (hQ : IsCongruence Q) (h : Replaces templates Q value value')
    (position : ChildPosition) :
    Replaces templates Q (position.fill value) (position.fill value') := by
  induction position with
  | hole => exact h
  | item before _ after ih => exact ih.item hQ.refl before after
  | group _ hkey _ ih => exact ih.group hQ.group hkey
  | children _ _ hkind _ _ hkey _ _ hafter ih => exact ih.children hQ.primitive hkind hkey hafter

/-- Below a node, what is replaced leaves the names of the nodes around it alone. -/
theorem Replaces.fill_below (hQ : IsCongruence Q) (h : Replaces templates Q value value')
    {position : ChildPosition} (hbelow : position.BelowNode) :
    Replaces templates (fun m n => Q m n ∧ m.kindName = n.kindName) (position.fill value)
      (position.fill value') := by
  induction position with
  | hole => exact hbelow.elim
  | item before _ after ih => exact (ih hbelow).item (fun node => ⟨hQ.refl node, rfl⟩) before after
  | group _ hkey inner _ =>
    -- Inside the group nothing is asked about names any more.
    exact (h.fill hQ inner).group (fun hnodes => ⟨hQ.group hnodes, rfl⟩) hkey
  | children _ _ hkind _ _ hkey inner _ hafter _ =>
    refine (h.fill hQ inner).children (fun kind props hnodes => ?_) hkind hkey hafter
    exact ⟨hQ.primitive kind props hnodes, rfl⟩

end Authoring

end PipelineTree
