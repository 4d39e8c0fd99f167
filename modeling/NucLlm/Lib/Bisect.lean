import NucLlm.Lib.Exec
import Mathlib.Order.Basic

/-!
# Bisection with a question

The least accepted number is looked for between two bounds.  The answers need not be monotone: the
number that is found was accepted, or nothing was.
-/

namespace NucLlm

variable {ε σ : Type}

/-- `while lo < hi: ...`, with the last number that was accepted in `best`. -/
def bisect (ask : ℕ → Exec ε σ Bool) (lo hi best : ℕ) : Exec ε σ ℕ :=
  if lo < hi then do
    if ← ask ((lo + hi) / 2) then bisect ask lo ((lo + hi) / 2) ((lo + hi) / 2)
    else bisect ask ((lo + hi) / 2 + 1) hi best
  else pure best
termination_by hi - lo

variable {ask : ℕ → Exec ε σ Bool}

theorem bisect_step (lo hi best : ℕ) (h : lo < hi) :
    bisect ask lo hi best = ask ((lo + hi) / 2) >>= fun b ↦
      if b then bisect ask lo ((lo + hi) / 2) ((lo + hi) / 2)
      else bisect ask ((lo + hi) / 2 + 1) hi best := by
  rw [bisect, if_pos h]

theorem bisect_done (lo hi best : ℕ) (h : ¬lo < hi) :
    bisect ask lo hi best = (pure best : Exec ε σ ℕ) := by
  rw [bisect, if_neg h]

/-- What was found is `best`, or a number between the bounds that was accepted. -/
theorem bisect_gives {p : ℕ → Bool → Prop} {R : ε → Prop}
    (hask : ∀ n, (ask n).Gives (p n) R) (lo hi best : ℕ) :
    (bisect ask lo hi best).Gives
      (fun n ↦ n = best ∨ (lo ≤ n ∧ n < hi) ∧ p n true) R := by
  induction lo, hi, best using bisect.induct with
  | case1 lo hi best h ihyes ihno =>
    rw [bisect_step lo hi best h]
    apply (hask _).bind
    intro b hb
    cases b with
    | true =>
      apply ihyes.mono
      rintro n (rfl | ⟨hn, hp⟩)
      · exact .inr ⟨by omega, hb⟩
      · exact .inr ⟨by omega, hp⟩
    | false =>
      apply ihno.mono
      rintro n (rfl | ⟨hn, hp⟩)
      · exact .inl rfl
      · exact .inr ⟨by omega, hp⟩
  | case2 lo hi best h =>
    rw [bisect_done lo hi best h]
    exact Exec.gives_pure (.inl rfl)

theorem bisect_preserves {I : σ → Prop} (hask : ∀ n, (ask n).Preserves I) (lo hi best : ℕ) :
    (bisect ask lo hi best).Preserves I := by
  induction lo, hi, best using bisect.induct with
  | case1 lo hi best h ihyes ihno =>
    rw [bisect_step lo hi best h]
    apply (hask _).bind
    rintro (_ | _)
    · exact ihno
    · exact ihyes
  | case2 lo hi best h =>
    rw [bisect_done lo hi best h]
    exact Exec.preserves_pure _ I

end NucLlm
