import Mathlib.Logic.Relation
import PipelineTree.Error.Recovery
import PipelineTree.Proofs.Expansion.Recursion
import PipelineTree.Proofs.Platform.DepthLimit

/-!
# Advice — trying again as the suggestion says

The suggestion for an expansion that goes too deep is a command with another limit.  `Advised` is one round of
following it: the expansion fails under a limit, and the command for its error names the next limit.  Each such
limit leads to exactly one other, twice as high, and what is deep enough once stays so under higher limits
(`within_raised`).  So the rounds come to an end if there is a limit that is high enough at all, unless they
start from zero, which doubling does not raise (`advised_escapes`).
-/

namespace PipelineTree

/-- A command of a suggestion is to try again with a depth limit. -/
def Recovery.Proposes (recovery : Recovery) (limit : Nat) : Prop :=
  s!"pipeweave generate --max-depth {limit} <INPUT>" ∈ recovery.commands

theorem Recovery.proposes_macroCycle_iff {rule : String} {limit next : Nat} :
    (macroCycle rule limit).Proposes next ↔ next = nextLimit limit := by
  -- The other command is a comment, and no try again.
  have hcomment : ∀ n : Nat, s!"pipeweave generate --max-depth {n} <INPUT>" ≠
      "# Only if the nesting is intentional:" := by
    intro n heq
    have hlists := congrArg String.toList heq
    simp [toString] at hlists
  constructor
  · intro h
    rcases List.mem_cons.1 h with hfirst | hrest
    · exact absurd hfirst (hcomment next)
    · have hsame := List.mem_singleton.1 hrest
      have hlists := congrArg String.toList hsame
      have hdigits : Nat.toDigits 10 next = Nat.toDigits 10 (nextLimit limit) := by
        simpa [toString, Nat.toList_repr] using hlists
      -- Digits read back as the number they are those of.
      calc
        next = Nat.ofDigitChars 10 (Nat.toDigits 10 next) 0 := Nat.ofDigitChars_ten_toDigits.symm
        _ = Nat.ofDigitChars 10 (Nat.toDigits 10 (nextLimit limit)) 0 := by rw [hdigits]
        _ = nextLimit limit := Nat.ofDigitChars_ten_toDigits
  · rintro rfl
    exact List.mem_cons_of_mem _ (List.mem_singleton_self _)

variable {ρ : Type} [ExpansionRule ρ]

/--
One round of following the advice: under a limit the expansion goes too deep, and the suggestion for the
error is to try the next one.
-/
def Advised (nodes : List (Node ρ)) (limit next : Nat) : Prop :=
  ∃ error recovery, (expandAll limit nodes).result = .error error ∧ error.TooDeep ∧
    Recovery.ofError? error = some recovery ∧ recovery.Proposes next

/-- The nodes expand, or fail in another way than at the limit. -/
def WithinLimit (limit : Nat) (nodes : List (Node ρ)) : Prop :=
  ¬FailsAtDepth (expandAll limit nodes).result

/-! ## One round -/

variable {nodes : List (Node ρ)} {limit next : Nat}

/-- An expansion that goes too deep reports the limit it was given. -/
theorem exists_rule_of_tooDeep {error : Error} (h : (expandAll limit nodes).result = .error error)
    (hdeep : error.TooDeep) : ∃ rule, error = .depthExceeded limit rule := by
  rcases ofExpansion_of_expandAll h with ⟨rule, hlimit | ⟨cause, hfailed⟩⟩
  · exact ⟨rule, hlimit⟩
  · rcases hdeep with ⟨_, _, hother⟩
    cases hfailed.symm.trans hother

theorem advised_iff : Advised nodes limit next ↔
    ¬WithinLimit limit nodes ∧ next = Recovery.nextLimit limit := by
  constructor
  · rintro ⟨error, recovery, hresult, hdeep, hrecovery, hproposes⟩
    refine ⟨not_not.2 ⟨error, hresult, hdeep⟩, ?_⟩
    rcases exists_rule_of_tooDeep hresult hdeep with ⟨rule, rfl⟩
    cases hrecovery
    exact Recovery.proposes_macroCycle_iff.1 hproposes
  · rintro ⟨hfails, rfl⟩
    rcases not_not.1 hfails with ⟨error, hresult, hdeep⟩
    rcases exists_rule_of_tooDeep hresult hdeep with ⟨rule, rfl⟩
    exact ⟨_, _, hresult, hdeep, rfl, Recovery.proposes_macroCycle_iff.2 rfl⟩

theorem existsUnique_advised (h : ¬WithinLimit limit nodes) : ∃! next, Advised nodes limit next := by
  refine ⟨Recovery.nextLimit limit, advised_iff.2 ⟨h, rfl⟩, ?_⟩
  intro other hother
  exact (advised_iff.1 hother).2

/-- A limit that is high enough stays so when it is raised. -/
theorem within_raised (h : WithinLimit limit nodes) {higher : Nat} (hle : limit ≤ higher) :
    WithinLimit higher nodes := by
  have hagree := expandAll_levels (P := Eq) (fun _ => rfl) hle nodes
  rintro ⟨error, hhigher, hdeep⟩
  rw [hhigher] at hagree
  cases hresult : (expandAll limit nodes).result with
  | ok yield =>
    rw [hresult] at hagree
    exact hagree
  | error other =>
    rw [hresult] at hagree
    -- An error under the lower limit is excused or the same one, and is too deep either way.
    rcases hagree with hother | rfl
    · exact h ⟨other, hresult, hother⟩
    · exact h ⟨other, hresult, hdeep⟩

/-! ## All rounds -/

/-- From a limit above zero, the advice leads to one that is high enough, if there is any. -/
theorem exists_within {deep : Nat} (hdeep : WithinLimit deep nodes) (hpos : 0 < limit) :
    ∃ last, Relation.ReflTransGen (Advised nodes) limit last ∧ WithinLimit last nodes := by
  -- What the limit lacks decreases with each round.
  induction hlack : deep - limit using Nat.strongRecOn generalizing limit with
  | ind lack ih =>
    by_cases hwithin : WithinLimit limit nodes
    · exact ⟨limit, .refl, hwithin⟩
    · have hlt : limit < deep := by
        by_contra hle
        exact hwithin (within_raised hdeep (Nat.le_of_not_lt hle))
      have hround : Advised nodes limit (limit * 2) := advised_iff.2 ⟨hwithin, rfl⟩
      have hless : deep - limit * 2 < lack := by omega
      have hnext : 0 < limit * 2 := by omega
      rcases ih _ hless hnext rfl with ⟨last, hrounds, hlast⟩
      exact ⟨last, .head hround hrounds, hlast⟩

/-- From zero the advice leads nowhere. -/
theorem eq_zero_of_advised {last : Nat} (h : Relation.ReflTransGen (Advised nodes) 0 last) : last = 0 := by
  induction h with
  | refl => rfl
  | tail _ hround ih =>
    subst ih
    exact (advised_iff.1 hround).2

/--
Every limit under which the expansion goes too deep comes with exactly one other to try.  If there is a limit
that is high enough for some nodes, then following the advice leads to such a limit from every start but zero,
where it leads back to zero for good.
-/
theorem advised_escapes {nodes : List (Node ρ)} (h : ∃ deep, WithinLimit deep nodes) (start : Nat) :
    (∀ limit, ¬WithinLimit limit nodes → ∃! next, Advised nodes limit next) ∧
      ((∃ last, Relation.ReflTransGen (Advised nodes) start last ∧ WithinLimit last nodes) ↔
        0 < start ∨ WithinLimit 0 nodes) := by
  refine ⟨fun limit hfails => existsUnique_advised hfails, ?_⟩
  rcases h with ⟨deep, hdeep⟩
  constructor
  · rintro ⟨last, hrounds, hlast⟩
    rcases Nat.eq_zero_or_pos start with rfl | hpos
    · rw [eq_zero_of_advised hrounds] at hlast
      exact .inr hlast
    · exact .inl hpos
  · rintro (hpos | hzero)
    · exact exists_within hdeep hpos
    · exact ⟨start, .refl, within_raised hzero (Nat.zero_le start)⟩

/-- A job in three groups, one in the other. -/
def nestedJob : List (Node TemplateUse) :=
  [.group [.group [.group [.primitive .githubJob [("id", .text "build")] []]]]]

theorem withinLimit_nestedJob : WithinLimit 3 nestedJob := by
  have hresult : (expandAll 3 nestedJob).result =
      .ok [.primitive .githubJob [("id", .text "build")] []] := by
    rw [expandAll_eq_walk]
    with_unfolding_all rfl
  rintro ⟨error, herror, -⟩
  cases hresult.symm.trans herror

/-- From one level, two rounds are enough for the job: the levels are doubled to two and to four. -/
theorem advised_escapes_nestedJob :
    (∃ deep, WithinLimit deep nestedJob) ∧
      (∀ limit, ¬WithinLimit limit nestedJob → ∃! next, Advised nestedJob limit next) ∧
      ∃ last, Relation.ReflTransGen (Advised nestedJob) 1 last ∧ WithinLimit last nestedJob := by
  have hdeep : ∃ deep, WithinLimit deep nestedJob := ⟨3, withinLimit_nestedJob⟩
  rcases advised_escapes hdeep 1 with ⟨honce, hescapes⟩
  exact ⟨hdeep, honce, hescapes.2 (.inl Nat.one_pos)⟩

/--
With a limit of zero the advice is of no help, though there is a limit that is high enough: whatever is tried
next is zero again, and goes too deep again.
-/
theorem advice_stuck_at_zero :
    (∃ deep, WithinLimit deep nestedJob) ∧
      ¬∃ last, Relation.ReflTransGen (Advised nestedJob) 0 last ∧ WithinLimit last nestedJob := by
  have hresult : (expandAll 0 nestedJob).result = .error (.depthExceeded 0 "group") := by
    rw [expandAll_eq_walk]
    with_unfolding_all rfl
  refine ⟨⟨3, withinLimit_nestedJob⟩, ?_⟩
  rintro ⟨last, hrounds, hwithin⟩
  rw [eq_zero_of_advised hrounds] at hwithin
  exact hwithin ⟨_, hresult, _, _, rfl⟩

end PipelineTree
