/-!
# Enough steps

Nothing of a loop says how often it goes around. A machine that goes around its loops as long as it wants to is given
a number of steps, and without enough of them it has no result. It comes to an end if there is a number that is
enough, and every larger number makes no difference; what goes on for ever has no result, however many steps there
are.
-/

set_option autoImplicit false

namespace HostScript

variable {α β : Type}

/-- With enough steps there is a result, and it is this one. -/
def Comes (f : Nat → Option α) (a : α) : Prop := ∃ n, ∀ k, n ≤ k → f k = some a

namespace Comes

theorem const (a : α) : Comes (fun _ => some a) a := ⟨0, fun _ _ => rfl⟩

/-- There is no other one. -/
theorem unique {f : Nat → Option α} {a b : α} (h : Comes f a) (h' : Comes f b) : a = b := by
  obtain ⟨n, h⟩ := h
  obtain ⟨m, h'⟩ := h'
  have hmax := (h (max n m) (Nat.le_max_left _ _)).symm.trans (h' (max n m) (Nat.le_max_right _ _))
  exact Option.some_inj.mp hmax

theorem step {f : Nat → Option α} {a : α} (h : Comes (fun k => f (k + 1)) a) : Comes f a := by
  obtain ⟨n, h⟩ := h
  refine ⟨n + 1, fun k hk => ?_⟩
  obtain ⟨k, rfl⟩ := Nat.exists_eq_add_of_le' (Nat.le_of_add_left_le hk)
  exact h k (Nat.le_of_succ_le_succ hk)

theorem bind {f : Nat → Option α} {g : Nat → α → Option β} {a : α} {b : β} (hf : Comes f a)
    (hg : Comes (fun k => g k a) b) : Comes (fun k => (f k).bind (g k)) b := by
  obtain ⟨n, hf⟩ := hf
  obtain ⟨n', hg⟩ := hg
  refine ⟨max n n', fun k hk => ?_⟩
  dsimp only
  rw [hf k (Nat.le_trans (Nat.le_max_left _ _) hk), Option.bind_some]
  exact hg k (Nat.le_trans (Nat.le_max_right _ _) hk)

theorem map {f : Nat → Option α} {a : α} (h : Comes f a) (g : α → β) : Comes (fun k => (f k).map g) (g a) := by
  obtain ⟨n, h⟩ := h
  exact ⟨n, fun k hk => congrArg (Option.map g) (h k hk)⟩

end Comes

end HostScript
