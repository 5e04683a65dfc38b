import TensorTyping.Proofs.Rule.Bounds.Binary
import TensorTyping.Proofs.Rule.Bounds.Variadic

namespace TensorTyping.Rule

open Positional

/-- The built-in rules position by position, in the order of `builtins`. -/
def builtinsAt : List (Query → Positional) :=
  [identityAt, elemwiseAt, broadcastAt, matmulAt, reshapeAt, tupleGetAt, makeTupleAt, refNewAt,
    refReadAt, adtCallAt, callGlobalAt]

theorem builtinsAt_eq :
    List.Forall₂ (fun rule program => ∀ q, program q = (rule.resolve q).positional)
      builtins builtinsAt :=
  .cons identityAt_eq <| .cons elemwiseAt_eq <| .cons broadcastAt_eq <| .cons matmulAt_eq <|
    .cons reshapeAt_eq <| .cons tupleGetAt_eq <| .cons makeTupleAt_eq <| .cons refNewAt_eq <|
    .cons refReadAt_eq <| .cons adtCallAt_eq <| .cons callGlobalAt_eq .nil

section resolved

variable {σ : Type} {reporter : Reporter σ} {s : σ} {next : Resolution}

theorem run_require_resolved {cond : Cond}
    (h : ((Resolution.require cond next).run reporter s).resolved = true) :
    ∃ s', (next.run reporter s').resolved = true ∧
      ((Resolution.require cond next).run reporter s).reports =
        .asserted cond true :: (next.run reporter s').reports := by
  rw [Resolution.require, Resolution.run] at h ⊢
  cases hanswer : reporter.assert cond s with
  | mk answer s' =>
    rw [hanswer] at h
    cases answer with
    | true => exact ⟨s', h, rfl⟩
    | false => cases h

/-- A resolved rule that asked for a rank has seen it, as the answer alone does not count. -/
theorem run_requireRank_resolved {t : TensorType} {rank : Nat}
    (h : ((requireRank t rank next).run reporter s).resolved = true) :
    t.rank = rank ∧ ∃ s', (next.run reporter s').resolved = true ∧
      ((requireRank t rank next).run reporter s).reports =
        .asserted (.eq (count rank) (count rank)) true :: (next.run reporter s').reports := by
  obtain ⟨s', hresolved, hreports⟩ := run_require_resolved h
  rw [requireRank, hreports]
  split at hresolved
  · rename_i hrank
    rw [if_pos hrank, hrank]
    exact ⟨rfl, s', hresolved, rfl⟩
  · cases hresolved

theorem run_matmul_resolved {q : Query} (h : ((matmul.resolve q).run reporter s).resolved = true) :
    ∃ a b out m k k' n, q.singleOutput? = some ([.tensor a, .tensor b], out) ∧
      a.shape = [m, k] ∧ b.shape = [k', n] ∧ a.dtype = b.dtype ∧
      ((matmul.resolve q).run reporter s).reports =
        [.asserted (.eq (count 2) (count 2)) true, .asserted (.eq (count 2) (count 2)) true,
          .asserted (.eq k k') true, .assigned out (.tensor ⟨[m, n], a.dtype⟩)] := by
  unfold matmul at h ⊢
  dsimp only at h ⊢
  split at h
  · rename_i a b out hq
    obtain ⟨ha, s₁, hresolved₁, hreports⟩ := run_requireRank_resolved h
    obtain ⟨hb, s₂, hresolved₂, hreports₁⟩ := run_requireRank_resolved hresolved₁
    -- the ranks were looked at, so both shapes have the form that the rule takes apart
    obtain ⟨m, k, hashape⟩ := List.length_eq_two.mp ha
    obtain ⟨k', n, hbshape⟩ := List.length_eq_two.mp hb
    rw [hq, hreports, hreports₁]
    split at hresolved₂
    · cases hresolved₂
    · rename_i hdtype
      rw [hashape, hbshape] at hresolved₂
      obtain ⟨s₃, -, hreports₂⟩ := run_require_resolved hresolved₂
      refine ⟨a, b, out, m, k, k', n, rfl, hashape, hbshape, not_not.mp hdtype, ?_⟩
      rw [if_neg hdtype, hashape, hbshape]
      exact congrArg (_ :: _ :: ·) hreports₂
  · cases h

end resolved

/-- Whatever a reporter answers, no built-in rule accesses anything out of range on the way to its verdict.
A resolved `matmul` has seen two matrices, and what it assigns is the matrix of the rows of the first one and
the columns of the second one. -/
theorem builtins_in_range (q : Query) {σ : Type} (reporter : Reporter σ) (s : σ) :
    List.Forall₂ (fun rule program =>
      (program q).run reporter s = some ((rule.resolve q).run reporter s)) builtins builtinsAt ∧
    (((matmul.resolve q).run reporter s).resolved = true → ∃ a b out m k k' n,
      q.args = [.tensor a, .tensor b, out] ∧ q.numInputs = 2 ∧
      a.shape = [m, k] ∧ b.shape = [k', n] ∧ a.dtype = b.dtype ∧
      ((matmul.resolve q).run reporter s).reports =
        [.asserted (.eq (count 2) (count 2)) true, .asserted (.eq (count 2) (count 2)) true,
          .asserted (.eq k k') true, .assigned out (.tensor ⟨[m, n], a.dtype⟩)]) := by
  refine ⟨builtinsAt_eq.imp fun rule program h => ?_, fun hresolved => ?_⟩
  · rw [h q, run_positional]
  · obtain ⟨a, b, out, m, k, k', n, hq, hmatmul⟩ := run_matmul_resolved hresolved
    exact ⟨a, b, out, m, k, k', n, Query.args_of_singleOutput? hq,
      Query.numInputs_of_singleOutput? hq, hmatmul⟩

/-- Two matrices that do not fit: a reporter that always says yes makes `matmul` assign the rows of one and
the columns of the other. -/
theorem builtins_in_range_misfit :
    let a : TensorType := ⟨[.const 2, .const 3], .float 32⟩
    let b : TensorType := ⟨[.const 4, .const 5], .float 32⟩
    let q : Query := ⟨[.tensor a, .tensor b, .hole ⟨0, .type⟩], 2, .empty, .empty⟩
    let reporter : Reporter Unit := ⟨fun _ _ s => s, fun _ s => (true, s), fun _ s => s⟩
    let o := (matmul.resolve q).run reporter ()
    o.resolved = true ∧
      .assigned (.hole ⟨0, .type⟩) (.tensor ⟨[.const 2, .const 5], .float 32⟩) ∈ o.reports := by
  intro a b q reporter o
  have hresolved : o.resolved = true := rfl
  obtain ⟨a', b', out, m, k, k', n, hargs, -, ha, hb, -, hreports⟩ :=
    (builtins_in_range q reporter ()).2 hresolved
  cases hargs
  cases ha
  cases hb
  exact ⟨hresolved, by rw [hreports]; simp [a]⟩

end TensorTyping.Rule
