import TensorTyping.Proofs.NormalForm.Within
import TensorTyping.Proofs.Ranges

namespace TensorTyping.Ranges

variable {known : Ranges} {σ : Assignment} {d : Dim}

/-- A single value left by what is known is the value. -/
theorem eval_point? (hσ : known.Admits σ) {p : NormalForm} {n : Int} {k : Word}
    (hn : p.eval σ = some n) (hk : (known.intervalOf p).point?.bind Word.ofInt? = some k) :
    k.toInt = n := by
  obtain ⟨m, hm, hfits⟩ := Option.bind_eq_some_iff.mp hk
  rw [Word.ofInt?_eq_some_iff.mp hfits]
  exact (Interval.eq_of_mem_point? (mem_intervalOf hσ hn) hm).symm

theorem eval_simplify (hσ : known.Admits σ) {n : Int} (hn : d.eval σ = some n) :
    (known.simplify d).eval σ = some n := by
  unfold simplify
  split
  · exact hn
  · rename_i p hp
    have hp' := NormalForm.eval_ofDim? hp hn
    split
    · rename_i k hk
      rw [Dim.eval_const, eval_point? hσ hp' hk]
    · exact NormalForm.eval_toDim (NormalForm.canonical_ofDim? hp) hp'

/-- What is known of other sizes never gets into a dimension. -/
theorem mentions_of_simplify (known : Ranges) (d : Dim) :
    (∀ x, (known.simplify d).Mentions x → d.Mentions x) ∧
      ((known.simplify d).containsAny = true → d.containsAny = true) := by
  unfold simplify
  split
  · exact ⟨fun _ => id, id⟩
  · rename_i p hp
    obtain ⟨-, hwithin⟩ := NormalForm.within_ofDim? hp
    split
    · exact ⟨fun x hx => hx.elim, fun hany => nomatch hany⟩
    · obtain ⟨hany, hvars⟩ := Dim.within_iff.mp (NormalForm.within_toDim hwithin)
      rw [hany]
      exact ⟨hvars, fun h => nomatch h⟩

/-- Whatever ranges were registered, a dimension is simplified to one of the same
value, for every choice of sizes within them under which it has one. The result
mentions no size variable and no `?` that the dimension does not mention. -/
theorem simplify_exact (bound : List (SizeVar × Range)) (d : Dim) :
    (∀ (σ : Assignment) (n : Int), (∀ e ∈ bound, e.2.Contains (σ e.1)) → d.eval σ = some n →
      ((none.bindAll bound).simplify d).eval σ = some n) ∧
    (∀ x ∈ ((none.bindAll bound).simplify d).freeVars, x ∈ d.freeVars) ∧
    (((none.bindAll bound).simplify d).containsAny = true → d.containsAny = true) := by
  obtain ⟨hvars, hany⟩ := mentions_of_simplify (none.bindAll bound) d
  refine ⟨fun σ n hσ hn => eval_simplify (admits_bindAll (admits_none σ) hσ) hn,
    fun x hx => ?_, hany⟩
  exact Dim.mem_freeVars.mpr (hvars x (Dim.mem_freeVars.mp hx))

/-- Half of four times a size, less the larger of the size and its successor, is the size less
one. -/
theorem simplify_exact_half :
    let n : SizeVar := ⟨0, "n"⟩
    let half : Dim := .binary .floorDiv (.binary .mul (.const 4) (.var n)) (.const 2)
    let larger : Dim := .binary .max (.binary .add (.var n) (.const 1)) (.var n)
    let d : Dim := .binary .sub half larger
    let known := none.bindAll [(n, ⟨1, 8⟩)]
    known.simplify d = .binary .sub (.var n) (.const 1) ∧ d.eval (fun _ => 7) = some 6 ∧
      (known.simplify d).eval (fun _ => 7) = some 6 := by
  intro n half larger d known
  have heval : d.eval (fun _ => 7) = some 6 := by decide
  refine ⟨by decide +kernel, heval, (simplify_exact [(n, ⟨1, 8⟩)] d).1 (fun _ => 7) 6 ?_ heval⟩
  intro e he
  rw [List.mem_singleton.mp he]
  decide

end TensorTyping.Ranges
