import Otterio.Lib.Go

/-!
# Calculations in `int64`

Signed 64-bit arithmetic wraps silently. `Calc α` is a calculation together with the exact results of
its operations, so that "no operation overflows" can be said of a run: `Calc.Fits`. The value of a
calculation that fits is the one of exact arithmetic, operation by operation (`Calc.add_fits` and the
like).
-/

namespace Otterio

def InInt64 (x : Int) : Prop := -2 ^ 63 ≤ x ∧ x ≤ maxInt64

theorem InInt64.int64_eq {x : Int} (h : InInt64 x) : int64 x = x := by
  obtain ⟨hlo, hhi⟩ := h
  unfold maxInt64 at hhi
  exact Int.bmod_eq_of_le (by omega) (by omega)

/-- The value of a calculation, and the exact results of its operations in order. -/
structure Calc (α : Type) where
  val : α
  exact : List Int
deriving DecidableEq

namespace Calc

variable {α β : Type}

instance : Monad Calc where
  pure a := ⟨a, []⟩
  bind c f := ⟨(f c.val).val, c.exact ++ (f c.val).exact⟩

def add (a b : Int) : Calc Int := ⟨int64 (a + b), [a + b]⟩

def sub (a b : Int) : Calc Int := ⟨int64 (a - b), [a - b]⟩

def neg (a : Int) : Calc Int := ⟨int64 (-a), [-a]⟩

def Fits (c : Calc α) : Prop := ∀ x ∈ c.exact, InInt64 x

/-- A calculation that does not overflow and has this value. -/
def Gives (c : Calc α) (a : α) : Prop := c.val = a ∧ c.Fits

theorem gives_pure (a : α) : (pure a : Calc α).Gives a := ⟨rfl, fun _ hx => nomatch hx⟩

theorem Gives.bind {c : Calc α} {a : α} {f : α → Calc β} {b : β} (hc : c.Gives a)
    (hf : (f a).Gives b) : (c >>= f).Gives b := by
  obtain ⟨rfl, hc⟩ := hc
  refine ⟨hf.1, fun x hx => ?_⟩
  rcases List.mem_append.mp hx with hx | hx
  · exact hc x hx
  · exact hf.2 x hx

theorem gives_single {x : Int} (h : InInt64 x) : (⟨int64 x, [x]⟩ : Calc Int).Gives x := by
  refine ⟨h.int64_eq, fun y hy => ?_⟩
  rw [List.mem_singleton.mp hy]
  exact h

theorem gives_add {a b : Int} (h : InInt64 (a + b)) : (add a b).Gives (a + b) := gives_single h

theorem gives_sub {a b : Int} (h : InInt64 (a - b)) : (sub a b).Gives (a - b) := gives_single h

theorem gives_neg {a : Int} (h : InInt64 (-a)) : (neg a).Gives (-a) := gives_single h

end Calc

end Otterio
