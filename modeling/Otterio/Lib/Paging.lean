import Mathlib

/-!
# Following the markers of a listing

A call lists some items and names the marker of the next call, or none if the listing has ended. The calls that
start at a marker list what that marker has left (`follow_eq`), if every call lists a first piece of it and the
marker that it names has the remainder left.
-/

namespace Otterio.Paging

open List

variable {μ α β : Type}

structure Page (μ α : Type) where
  items : List α
  next : Option μ

/-- The items of all calls; no value if a call fails or the fuel runs out. -/
def follow (call : μ → Option (Page μ α)) : Nat → μ → Option (List α)
  | 0, _ => none
  | fuel + 1, m =>
    match call m with
    | none => none
    | some page =>
      match page.next with
      | none => some page.items
      | some m' => (follow call fuel m').map (page.items ++ ·)

/-- A page is the first piece of what is left, as far as `f` sees it. -/
def Page.Splits (page : Page μ α) (f : α → β) (Inv : μ → Prop) (rest : μ → List β) (m : μ) : Prop :=
  match page.next with
  | none => page.items.map f = rest m
  | some m' => Inv m' ∧ page.items.map f ++ rest m' = rest m ∧ (rest m').length < (rest m).length

theorem follow_eq {call : μ → Option (Page μ α)} {f : α → β} {Inv : μ → Prop} {rest : μ → List β}
    (hcall : ∀ m, Inv m → ∃ page, call m = some page ∧ page.Splits f Inv rest m) {m : μ} (hm : Inv m) {fuel : Nat}
    (hfuel : (rest m).length < fuel) : ∃ items, follow call fuel m = some items ∧ items.map f = rest m := by
  induction fuel generalizing m with
  | zero => omega
  | succ fuel ih =>
    obtain ⟨page, hpage, hsplit⟩ := hcall m hm
    simp only [follow, hpage]
    unfold Page.Splits at hsplit
    cases hnext : page.next with
    | none =>
      rw [hnext] at hsplit
      exact ⟨page.items, rfl, hsplit⟩
    | some m' =>
      rw [hnext] at hsplit
      obtain ⟨hm', happend, hlt⟩ := hsplit
      obtain ⟨items, hitems, hmap⟩ := ih hm' (by omega)
      exact ⟨page.items ++ items, by dsimp only; rw [hitems]; rfl, by rw [map_append, hmap, happend]⟩

/-- In a list with ascending keys, what has a greater key than an element comes after it. -/
theorem filter_lt_of_append [LinearOrder β] (key : α → β) {l before after : List α} {x : α}
    (hl : l.Pairwise (key · < key ·)) (h : l = before ++ x :: after) : l.filter (fun y => key x < key y) = after := by
  subst h
  obtain ⟨-, hafter, hbefore⟩ := pairwise_append.mp hl
  rw [filter_append, filter_eq_nil_iff.mpr, nil_append, filter_cons_of_neg (by simp)]
  · exact filter_eq_self.mpr fun y hy => by simpa using rel_of_pairwise_cons hafter hy
  · intro y hy
    simpa using (hbefore y hy x (by simp)).le

end Otterio.Paging
