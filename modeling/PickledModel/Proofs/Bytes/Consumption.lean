import PickledModel.Bytes.Cursor
import PickledModel.Proofs.Process.Growth

/-! How much reads take from a cursor. Each byte left is counted four times, so
that a byte that is read pays for four values. -/

set_option autoImplicit false

namespace PickledModel

variable {α β : Type}

def Read.Takes (r : Read α) (n : Nat) : Prop :=
  ∀ c a c', r c = .ok (a, c') → c'.size + n ≤ c.size

namespace Read.Takes

variable {r : Read α} {n k : Nat}

theorem mono (h : r.Takes n) (hk : k ≤ n) : r.Takes k := by
  intro c a c' hr
  have := h c a c' hr
  omega

theorem bind {f : α → Read β} (hr : r.Takes n) (hf : ∀ a, (f a).Takes k) :
    (r >>= f).Takes (n + k) := by
  intro c b c' h
  change (do let (a, c) ← r c; f a c : Except Shortage _) = _ at h
  rcases hc : r c with e | ⟨a, c₁⟩
  · rw [hc] at h
    cases h
  · rw [hc] at h
    have := hr c a c₁ hc
    have := hf a c₁ b c' h
    omega

theorem pure (a : α) : Read.Takes (Pure.pure a) 0 := by
  intro c b c' h
  cases h
  exact Nat.le_refl _

theorem map (f : α → β) (h : r.Takes n) : (f <$> r).Takes n := by
  rw [← bind_pure_comp]
  exact h.bind fun a => pure (f a)

end Read.Takes

namespace Cursor

theorem take_takes (n : Nat) : Read.Takes (take n) n := by
  intro c bs c' h
  obtain ⟨hrest, hlength, -⟩ := take_eq_ok_iff.mp h
  rw [size, size, hrest, List.length_append]
  omega

theorem skip_takes (n : Nat) : Read.Takes (skip n) n := (take_takes n).bind fun _ => .pure ()

theorem word_takes (width : Nat) : Read.Takes (word width) width := (take_takes width).map _

theorem integer_takes (width : Nat) : Read.Takes (integer width) width := (take_takes width).map _

theorem run_takes (width : Nat) : Read.Takes (run width) width :=
  (word_takes width).bind fun n => (take_takes n).mono (Nat.zero_le n)

theorem line_takes : Read.Takes line 1 := by
  intro c bs c' h
  unfold line at h
  dsimp only at h
  split at h
  · next b rest hdrop =>
    cases h
    have hlength := congrArg List.length hdrop
    rw [List.length_drop, List.length_cons] at hlength
    rw [size, size]
    dsimp only
    omega
  · cases h

def reserve (c : Cursor) : Nat := 4 * c.size

end Cursor

namespace Process

abbrev Pays (p : Process Cursor α) (w : α → Nat) : Prop :=
  Grows (fun _ => 0) Cursor.reserve p 0 w

theorem read_pays {r : Read α} {n : Nat} (h : r.Takes n) : Pays (read r) fun _ => 4 * n := by
  intro c
  refine ⟨Nat.le_refl 0, fun _ => ?_⟩
  rcases hr : r c with s | ⟨a, c'⟩
  · rw [start_read_error hr]
    exact Nat.le_refl _
  · rw [start_read_ok hr]
    have := h c a c' hr
    simp only [Cursor.reserve, worthOf]
    omega

theorem read_free {r : Read α} {n : Nat} (h : r.Takes n) : Pays (read r) fun _ => 0 :=
  (read_pays h).mono (Nat.le_refl 0) fun _ => Nat.zero_le _

end Process

end PickledModel
