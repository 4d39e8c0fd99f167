import Mathlib.Data.List.FinRange
import Mathlib.Data.Nat.Basic
import Mathlib.Tactic.Linarith

/-!
# Copies into flat buffers

A buffer is the function that reads it.  `copyTo` overwrites one block of it
and `copyBlocks` one block for each of finitely many indices; blocks that do
not meet are read back as they were written.
-/

namespace NucLlm.Buffer

variable {α : Type*} {n m : ℕ}

/-- The buffer after the block at `off` has been overwritten. -/
def copyTo (dst : ℕ → α) (off : ℕ) (src : Fin n → α) : ℕ → α := fun i ↦
  if h : off ≤ i ∧ i < off + n then src ⟨i - off, by omega⟩ else dst i

@[simp] theorem copyTo_inside (dst : ℕ → α) (off : ℕ) (src : Fin n → α) (j : Fin n) :
    copyTo dst off src (off + j) = src j := by
  have hin : off ≤ off + (j : ℕ) ∧ off + (j : ℕ) < off + n := by omega
  unfold copyTo
  rw [dif_pos hin]
  congr
  omega

theorem copyTo_outside {dst : ℕ → α} {off : ℕ} {src : Fin n → α} {i : ℕ}
    (h : ¬ (off ≤ i ∧ i < off + n)) : copyTo dst off src i = dst i :=
  dif_neg h

/-- One block for each index of the list, in order. -/
def copyEach {κ : Type*} (off : κ → ℕ) (src : κ → Fin n → α) (dst : ℕ → α) (ks : List κ) :
    ℕ → α :=
  ks.foldl (fun b k ↦ copyTo b (off k) (src k)) dst

theorem copyEach_outside {κ : Type*} {off : κ → ℕ} {src : κ → Fin n → α} {i : ℕ} {ks : List κ}
    (h : ∀ k ∈ ks, ¬ (off k ≤ i ∧ i < off k + n)) :
    ∀ dst, copyEach off src dst ks i = dst i := by
  induction ks with
  | nil => exact fun dst ↦ rfl
  | cons k ks ih =>
      obtain ⟨hk, hks⟩ := List.forall_mem_cons.mp h
      intro dst
      exact (ih hks _).trans (copyTo_outside hk)

theorem copyEach_inside {κ : Type*} {off : κ → ℕ} {src : κ → Fin n → α} {k : κ} {j : Fin n}
    {ks : List κ} (hmem : k ∈ ks)
    (hdisjoint : ∀ k' ∈ ks, k' ≠ k → ¬ (off k' ≤ off k + j ∧ off k + j < off k' + n)) :
    ∀ dst, copyEach off src dst ks (off k + j) = src k j := by
  induction ks with
  | nil => contradiction
  | cons k₀ ks ih =>
      intro dst
      obtain ⟨hk₀, hks⟩ := List.forall_mem_cons.mp hdisjoint
      by_cases hlater : k ∈ ks
      · exact ih hlater hks _
      · obtain rfl := (List.mem_cons.mp hmem).resolve_right hlater
        refine (copyEach_outside (fun k' hk' ↦ hks k' hk' ?_) _).trans (copyTo_inside _ _ _ _)
        rintro rfl
        exact hlater hk'

/-- One block for each `k < m`, the `k`-th at `k * stride + base`. -/
def copyBlocks (m stride base : ℕ) (src : Fin m → Fin n → α) (dst : ℕ → α) : ℕ → α :=
  copyEach (fun k : Fin m ↦ k * stride + base) src dst (List.finRange m)

theorem blocks_disjoint {stride base k k' i : ℕ} (hfit : base + n ≤ stride) (hne : k' ≠ k)
    (hi : i < n) :
    ¬ (k' * stride + base ≤ k * stride + base + i ∧
      k * stride + base + i < k' * stride + base + n) := by
  rintro ⟨hle, hlt⟩
  rcases Nat.lt_or_gt_of_ne hne with hlow | hhigh
  · have hmul : (k' + 1) * stride ≤ k * stride := Nat.mul_le_mul_right stride hlow
    rw [Nat.succ_mul] at hmul
    omega
  · have hmul : (k + 1) * stride ≤ k' * stride := Nat.mul_le_mul_right stride hhigh
    rw [Nat.succ_mul] at hmul
    omega

theorem copyBlocks_inside {stride base : ℕ} (hfit : base + n ≤ stride) (src : Fin m → Fin n → α)
    (dst : ℕ → α) (k : Fin m) (j : Fin n) :
    copyBlocks m stride base src dst (k * stride + base + j) = src k j := by
  have hdisjoint : ∀ k' ∈ List.finRange m, k' ≠ k →
      ¬ ((k' : ℕ) * stride + base ≤ k * stride + base + j ∧
        k * stride + base + j < k' * stride + base + n) :=
    fun _ _ hne ↦ blocks_disjoint hfit (fun h ↦ hne (Fin.ext h)) j.isLt
  exact copyEach_inside (List.mem_finRange k) hdisjoint dst

theorem copyBlocks_outside {stride base i : ℕ} {src : Fin m → Fin n → α} {dst : ℕ → α}
    (h : ∀ k : Fin m, ¬ (k * stride + base ≤ i ∧ i < k * stride + base + n)) :
    copyBlocks m stride base src dst i = dst i :=
  copyEach_outside (fun k _ ↦ h k) dst

end NucLlm.Buffer
