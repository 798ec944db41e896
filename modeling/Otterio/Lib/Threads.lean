import Mathlib

/-!
# Threads over shared arrays

Threads share arrays of cells. One step of a thread reads a cell, writes a cell, takes a new array or
changes only the thread (`Op`). A schedule says whose step is next, so that all schedules are all
interleavings (`Config.run`).

`rely_guarantee` is the rule for an invariant of each thread. The first `n` arrays are shared, and into
their cells a thread writes only what `shared` permits; other arrays are written by their owner alone.
An invariant that survives such steps of others (`Others`) and that the own steps of a thread keep
(`Keeps`) holds of every thread in every schedule. Without other threads the first half is not needed
(`run_single`).
-/

namespace Otterio

open List

variable {E τ : Type}

/-! ## Memory and steps -/

/-- Arrays of cells. The addresses below `next` are in use. -/
structure Memory (E : Type) where
  cells : Nat → Nat → E
  next : Nat

namespace Memory

def write (mem : Memory E) (a i : Nat) (e : E) : Memory E :=
  { mem with cells := fun b j => if b = a ∧ j = i then e else mem.cells b j }

def alloc (mem : Memory E) (f : Nat → E) : Memory E :=
  { cells := fun b j => if b = mem.next then f j else mem.cells b j, next := mem.next + 1 }

end Memory

inductive Op (E τ : Type) where
  | stop
  | next (t : τ)
  | read (a i : Nat) (k : E → τ)
  | write (a i : Nat) (e : E) (t : τ)
  | alloc (f : Nat → E) (k : Nat → τ)

def Op.run (mem : Memory E) (t : τ) : Op E τ → Memory E × τ
  | .stop => (mem, t)
  | .next t => (mem, t)
  | .read a i k => (mem, k (mem.cells a i))
  | .write a i e t => (mem.write a i e, t)
  | .alloc f k => (mem.alloc f, k mem.next)

structure Config (E τ : Type) where
  mem : Memory E
  threads : List τ

namespace Config

variable (op : τ → Op E τ)

def step (c : Config E τ) (i : Nat) : Config E τ :=
  match c.threads[i]? with
  | none => c
  | some t => ⟨((op t).run c.mem t).1, c.threads.set i ((op t).run c.mem t).2⟩

def run (c : Config E τ) (schedule : List Nat) : Config E τ := schedule.foldl (step op) c

theorem run_append (c : Config E τ) (s s' : List Nat) : c.run op (s ++ s') = (c.run op s).run op s' := foldl_append

theorem length_threads_run (c : Config E τ) (schedule : List Nat) :
    (c.run op schedule).threads.length = c.threads.length := by
  induction schedule using List.reverseRecOn with
  | nil => rfl
  | append_singleton schedule i ih =>
    rw [run_append, ← ih]
    show (step op (c.run op schedule) i).threads.length = _
    unfold step
    split
    · rfl
    · rw [length_set]

theorem run_of_nil {c : Config E τ} (h : c.threads = []) (schedule : List Nat) : c.run op schedule = c := by
  induction schedule with
  | nil => rfl
  | cons i schedule ih =>
    have hstep : c.step op i = c := by
      unfold step
      rw [h]
      rfl
    rw [run, foldl_cons, hstep]
    exact ih

end Config

/-! ## The rule -/

variable {n : Nat} {shared : Nat → Nat → E → Prop}

/-- What the steps of other threads may do. -/
structure Others (n : Nat) (shared : Nat → Nat → E → Prop) (own : Nat → Prop) (mem mem' : Memory E) :
    Prop where
  owned : ∀ a i, own a → mem'.cells a i = mem.cells a i
  shared : ∀ a i, a < n → mem'.cells a i = mem.cells a i ∨ shared a i (mem'.cells a i)

/-- What the own steps of a thread may do: it writes its arrays and, as permitted, the shared ones. It
owns new arrays afterwards. -/
structure Keeps (n : Nat) (shared : Nat → Nat → E → Prop) (own own' : Nat → Prop) (mem mem' : Memory E) : Prop where
  cells : ∀ a i, mem'.cells a i = mem.cells a i ∨ own' a ∨ (a < n ∧ shared a i (mem'.cells a i))
  fresh : ∀ a, own' a → own a ∨ (mem.next ≤ a ∧ a < mem'.next)
  next : mem.next ≤ mem'.next

/-- The arrays of a thread are new ones. -/
def Private (n : Nat) (own : Nat → Prop) (mem : Memory E) : Prop := ∀ a, own a → n ≤ a ∧ a < mem.next

theorem Keeps.refl (own : Nat → Prop) (mem : Memory E) : Keeps n shared own own mem mem :=
  ⟨fun _ _ => .inl rfl, fun _ h => .inl h, le_rfl⟩

variable {own : Nat → Prop} {mem : Memory E}

theorem Keeps.write {a i : Nat} {e : E} (h : own a ∨ (a < n ∧ shared a i e)) :
    Keeps n shared own own mem (mem.write a i e) := by
  refine ⟨fun b j => ?_, fun _ h => .inl h, le_rfl⟩
  unfold Memory.write
  by_cases hcell : b = a ∧ j = i
  · simp only [if_pos hcell]
    obtain ⟨rfl, rfl⟩ := hcell
    exact .inr h
  · simp only [if_neg hcell]
    exact .inl trivial

theorem Keeps.alloc {f : Nat → E} : Keeps n shared own (fun a => own a ∨ a = mem.next) mem (mem.alloc f) := by
  unfold Memory.alloc
  refine ⟨fun b j => ?_, fun a h => ?_, Nat.le_succ _⟩
  · by_cases hb : b = mem.next
    · exact .inr (.inl (.inr hb))
    · simp only [if_neg hb]
      exact .inl trivial
  · refine h.imp_right fun ha => ⟨ha.ge, ?_⟩
    simp only
    omega

variable {own' other : Nat → Prop} {mem' : Memory E} (h : Keeps n shared own own' mem mem') (hn : n ≤ mem.next)
  (hown : Private n own mem)

include h hn hown

theorem Keeps.isPrivate : Private n own' mem' := by
  intro a ha
  rcases h.fresh a ha with hmine | ⟨hlo, hhi⟩
  · exact ⟨(hown a hmine).1, lt_of_lt_of_le (hown a hmine).2 h.next⟩
  · exact ⟨le_trans hn hlo, hhi⟩

/-- The steps of one thread are steps of another one for the rest. -/
theorem Keeps.others (hother : Private n other mem)
    (hdisjoint : ∀ a, own a → ¬ other a) : Others n shared other mem mem' := by
  have hnew : ∀ a, own' a → n ≤ a ∧ ¬ other a := by
    intro a ha
    rcases h.fresh a ha with ha' | ⟨hlo, -⟩
    · exact ⟨(hown a ha').1, hdisjoint a ha'⟩
    · refine ⟨by omega, fun hoth => ?_⟩
      have hlt := (hother a hoth).2
      omega
  refine ⟨fun a i hoth => ?_, fun a i ha => ?_⟩
  · rcases h.cells a i with heq | hmine | ⟨hlt, -⟩
    · exact heq
    · exact absurd hoth (hnew a hmine).2
    · have hge := (hother a hoth).1
      omega
  · rcases h.cells a i with heq | hmine | ⟨-, hshared⟩
    · exact .inl heq
    · have hge := (hnew a hmine).1
      omega
    · exact .inr hshared

omit h hn hown

/-- The steps of others do not disturb the invariant. -/
def Relies (n : Nat) (shared : Nat → Nat → E → Prop) (I : (Nat → Prop) → Memory E → τ → Prop) : Prop :=
  ∀ own mem mem' t, I own mem t → Others n shared own mem mem' → I own mem' t

/-- The own steps of a thread keep it. -/
def Guarantees (n : Nat) (shared : Nat → Nat → E → Prop) (op : τ → Op E τ)
    (I : (Nat → Prop) → Memory E → τ → Prop) : Prop :=
  ∀ own mem t, n ≤ mem.next → Private n own mem → I own mem t →
    ∃ own', Keeps n shared own own' mem ((op t).run mem t).1 ∧ I own' ((op t).run mem t).1 ((op t).run mem t).2

variable {op : τ → Op E τ} {I : (Nat → Prop) → Memory E → τ → Prop}

/-- The arrays of each thread, and their invariants. -/
structure Config.Owned (n : Nat) (I : (Nat → Prop) → Memory E → τ → Prop) (c : Config E τ)
    (owns : Nat → Nat → Prop) : Prop where
  next : n ≤ c.mem.next
  invariant : ∀ i t, c.threads[i]? = some t → I (owns i) c.mem t
  isPrivate : ∀ i, Private n (owns i) c.mem
  disjoint : ∀ i j a, owns i a → owns j a → i = j

variable {c : Config E τ}

/-- A step of one thread keeps the invariants of all. -/
theorem Config.Owned.step (hstable : Relies n shared I) (hstep : Guarantees n shared op I)
    {owns : Nat → Nat → Prop} (h : c.Owned n I owns) (i : Nat) : ∃ owns', (c.step op i).Owned n I owns' := by
  unfold Config.step
  cases ht : c.threads[i]? with
  | none => exact ⟨owns, h⟩
  | some t =>
    obtain ⟨own', hkeeps, hown'⟩ := hstep _ _ t h.next (h.isPrivate i) (h.invariant i t ht)
    have hfresh : ∀ j a, j ≠ i → own' a → ¬ owns j a := by
      intro j a hj ha hother
      rcases hkeeps.fresh a ha with hmine | ⟨hlo, -⟩
      · exact hj (h.disjoint j i a hother hmine)
      · have hlt := (h.isPrivate j a hother).2
        omega
    refine ⟨fun j => if j = i then own' else owns j, ?_, ?_, ?_, ?_⟩
    · exact le_trans h.next hkeeps.next
    · intro j u hu
      by_cases hj : j = i
      · subst hj
        have hlt : j < c.threads.length := (List.getElem?_eq_some_iff.mp ht).1
        simp only [List.getElem?_set_self hlt, Option.some.injEq] at hu
        rw [← hu]
        simp only [if_true]
        exact hown'
      · simp only [List.getElem?_set_ne (Ne.symm hj)] at hu
        simp only [if_neg hj]
        refine hstable _ _ _ _ (h.invariant j u hu) ?_
        exact hkeeps.others h.next (h.isPrivate i) (h.isPrivate j) fun a hmine hother =>
          hj (h.disjoint j i a hother hmine)
    · intro j
      by_cases hj : j = i
      · simp only [if_pos hj]
        exact hkeeps.isPrivate h.next (h.isPrivate i)
      · simp only [if_neg hj]
        exact fun a ha => ⟨(h.isPrivate j a ha).1, lt_of_lt_of_le (h.isPrivate j a ha).2 hkeeps.next⟩
    · intro j k a hj hk
      by_cases hji : j = i
      · by_cases hki : k = i
        · rw [hji, hki]
        · simp only [if_pos hji] at hj
          simp only [if_neg hki] at hk
          exact absurd hk (hfresh k a hki hj)
      · by_cases hki : k = i
        · simp only [if_neg hji] at hj
          simp only [if_pos hki] at hk
          exact absurd hj (hfresh j a hji hk)
        · simp only [if_neg hji] at hj
          simp only [if_neg hki] at hk
          exact h.disjoint j k a hj hk

/-- An invariant that the steps of others do not disturb and the own steps of each thread keep. -/
theorem rely_guarantee (hstable : Relies n shared I) (hstep : Guarantees n shared op I)
    (hn : n ≤ c.mem.next) (hinit : ∀ t ∈ c.threads, I (fun _ => False) c.mem t) (schedule : List Nat) :
    ∃ owns, (c.run op schedule).Owned n I owns := by
  induction schedule using List.reverseRecOn with
  | nil =>
    refine ⟨fun _ _ => False, hn, fun i t ht => hinit t (mem_of_getElem? ht), ?_, ?_⟩
    · exact fun _ _ hfalse => hfalse.elim
    · exact fun _ _ _ hfalse => hfalse.elim
  | append_singleton schedule i ih =>
    obtain ⟨owns, howns⟩ := ih
    rw [Config.run_append]
    exact howns.step hstable hstep i

/-! ## One thread -/

variable (op) in
/-- The memory and the thread after some steps of its own. -/
def runThread : Nat → Memory E → τ → Memory E × τ
  | 0, mem, t => (mem, t)
  | k + 1, mem, t => runThread k ((op t).run mem t).1 ((op t).run mem t).2

theorem runThread_add (j k : Nat) (mem : Memory E) (t : τ) :
    runThread op (j + k) mem t = runThread op k (runThread op j mem t).1 (runThread op j mem t).2 := by
  induction j generalizing mem t with
  | zero => rw [Nat.zero_add, runThread]
  | succ j ih => rw [Nat.succ_add, runThread, ih, runThread]

theorem run_replicate {i : Nat} {t : τ} (h : c.threads[i]? = some t) (k : Nat) : c.run op (List.replicate k i) =
      ⟨(runThread op k c.mem t).1, c.threads.set i (runThread op k c.mem t).2⟩ := by
  have hlt : i < c.threads.length := (List.getElem?_eq_some_iff.mp h).1
  induction k generalizing c t with
  | zero =>
    obtain ⟨_, rfl⟩ := List.getElem?_eq_some_iff.mp h
    rw [runThread]
    simp only [set_getElem_self]
    rfl
  | succ k ih =>
    have hstep : c.step op i = ⟨((op t).run c.mem t).1, c.threads.set i ((op t).run c.mem t).2⟩ := by
      unfold Config.step
      rw [h]
    have hrest := @ih (c.step op i) ((op t).run c.mem t).2
      (by rw [hstep]; exact List.getElem?_set_self hlt) (by rw [hstep]; simpa using hlt)
    refine hrest.trans ?_
    rw [hstep]
    simp only [runThread, set_set]

/-- An invariant that the own steps of a thread keep. -/
theorem runThread_invariant (hstep : Guarantees n shared op I) {t : τ} (hn : n ≤ mem.next) (hown : Private n own mem)
    (h : I own mem t) (k : Nat) : ∃ own', I own' (runThread op k mem t).1 (runThread op k mem t).2 := by
  induction k generalizing own mem t with
  | zero => exact ⟨own, h⟩
  | succ k ih =>
    obtain ⟨own', hkeeps, hown'⟩ := hstep own mem t hn hown h
    exact ih (le_trans hn hkeeps.next) (hkeeps.isPrivate hn hown) hown'

/-- A thread whose steps make a measure smaller until it has finished. -/
theorem runThread_finishes {μ : τ → Nat} {finished : τ → Prop}
    (hless : ∀ mem t, finished t ∨ μ ((op t).run mem t).2 < μ t) (mem : Memory E) (t : τ) :
    ∃ k, finished (runThread op k mem t).2 := by
  induction hμ : μ t using Nat.strong_induction_on generalizing mem t with
  | _ m ih =>
    rcases hless mem t with hdone | hlt
    · exact ⟨0, hdone⟩
    · obtain ⟨k, hk⟩ := ih _ (hμ ▸ hlt) ((op t).run mem t).1 _ rfl
      exact ⟨k + 1, hk⟩

end Otterio
