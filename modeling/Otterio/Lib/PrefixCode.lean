import Otterio.Lib.Msgpack

/-!
# Prefix codes

A code of a type by byte strings that can be read from the front of a buffer (`Coded`). Numbers are
written in unary; products, lists and types that embed in a coded one are coded from their parts.

* `Coded.length_le_enc`: the code word of a list is at least as long as the list.
-/

namespace Otterio

open Msgpack List

/-- A code of the type by byte strings, none of which is the front of another. -/
class Coded (α : Type) where
  enc : α → Bytes
  dec : Reader α
  exact : Exact dec
  dec_enc : ∀ a rest, dec (enc a ++ rest) = some (a, rest)

namespace Coded

variable {α β : Type}

/-- Part of a code word is too short. -/
theorem dec_eq_none [Coded α] {a : α} {part : Bytes} (h : part <+: enc a) (hne : part ≠ enc a) :
    dec (α := α) part = none := by
  by_contra hsome
  obtain ⟨⟨b, rest⟩, hb⟩ := Option.ne_none_iff_exists'.mp hsome
  obtain ⟨missing, hmissing⟩ := h
  obtain ⟨used, rfl, hused⟩ := (exact (α := α)).used hb
  have hwhole : dec (α := α) (enc a) = some (b, rest ++ missing) := by
    rw [← hmissing, append_assoc]
    exact hused _
  have ha := dec_enc a []
  rw [append_nil, hwhole, Option.some.injEq, Prod.mk.injEq, append_eq_nil_iff] at ha
  rw [ha.2.2, append_nil] at hmissing
  exact hne hmissing

/-- Ones up to a zero. -/
def decNat : Reader Nat
  | [] => none
  | b :: rest => if b = 0 then some (0, rest) else (decNat rest).map fun r => (r.1 + 1, r.2)

theorem decNat_enc (n : Nat) (rest : Bytes) : decNat (List.replicate n 1 ++ [0] ++ rest) = some (n, rest) := by
  induction n with
  | zero => rfl
  | succ n ih => simp [decNat, replicate_succ] at ih ⊢; simp [ih]

theorem exact_decNat : Exact decNat where
  used {b rest n} h := by
    induction b generalizing n with
    | nil => cases h
    | cons x b ih =>
      unfold decNat at h
      split at h
      · rename_i hx
        cases h
        exact ⟨[x], rfl, fun tail => by simp [decNat, hx]⟩
      · rename_i hx
        obtain ⟨⟨m, rest'⟩, hm, heq⟩ := Option.map_eq_some_iff.mp h
        cases heq
        obtain ⟨used, rfl, hused⟩ := ih hm
        exact ⟨x :: used, rfl, fun tail => by simp [decNat, hx, hused]⟩

instance : Coded Nat where
  enc n := List.replicate n 1 ++ [0]
  dec := decNat
  exact := exact_decNat
  dec_enc := decNat_enc

/-! ## Types that embed in a coded one -/

@[reducible] def ofLeftInverse [Coded α] (f : β → α) (g : α → β) (h : ∀ b, g (f b) = b) : Coded β where
  enc b := enc (f b)
  dec := do
    let a ← dec (α := α)
    pure (g a)
  exact := .bind exact fun a => .pure (g a)
  dec_enc b rest := bind_eq_some.mpr ⟨f b, rest, dec_enc (f b) rest, by rw [h]; rfl⟩

instance [Coded α] [Coded β] : Coded (α × β) where
  enc p := enc p.1 ++ enc p.2
  dec := do
    let a ← dec (α := α)
    let b ← dec (α := β)
    pure (a, b)
  exact := .bind exact fun a => .bind exact fun b => .pure (a, b)
  dec_enc p rest := by
    rw [append_assoc]
    refine bind_eq_some.mpr ⟨p.1, _, dec_enc _ _, ?_⟩
    exact bind_eq_some.mpr ⟨p.2, rest, dec_enc _ _, rfl⟩

instance : Coded Bool := ofLeftInverse (fun b => if b then 1 else 0) (fun n => n == 1) (by decide)

instance : Coded UInt8 := ofLeftInverse UInt8.toNat UInt8.ofNat fun _ => UInt8.ofNat_toNat

instance : Coded Char := ofLeftInverse Char.toNat Char.ofNat Char.ofNat_toNat

instance (w : Nat) : Coded (BitVec w) :=
  ofLeftInverse BitVec.toNat (BitVec.ofNat w) fun v => by simp

instance : Coded Int :=
  ofLeftInverse (fun i => (i.toNat, (-i).toNat)) (fun p => (p.1 : Int) - p.2) fun i => by
    omega

/-! ## Lists -/

def decList [Coded α] : Nat → Reader (List α)
  | 0 => pure []
  | n + 1 => do
    let a ← dec
    let l ← decList n
    pure (a :: l)

theorem exact_decList [Coded α] (n : Nat) : Exact (decList (α := α) n) := by
  induction n with
  | zero => exact .pure []
  | succ n ih => exact .bind exact fun a => .bind ih fun l => .pure (a :: l)

theorem decList_enc [Coded α] (l : List α) (rest : Bytes) :
    decList l.length (l.flatMap enc ++ rest) = some (l, rest) := by
  induction l with
  | nil => rfl
  | cons a l ih =>
    rw [flatMap_cons, append_assoc]
    refine bind_eq_some.mpr ⟨a, _, dec_enc a _, ?_⟩
    exact bind_eq_some.mpr ⟨l, rest, ih, rfl⟩

instance [Coded α] : Coded (List α) where
  enc l := enc l.length ++ l.flatMap enc
  dec := do
    let n ← dec (α := Nat)
    decList n
  exact := .bind exact exact_decList
  dec_enc l rest := by
    rw [append_assoc]
    exact bind_eq_some.mpr ⟨l.length, _, dec_enc _ _, decList_enc l rest⟩

theorem length_le_enc [Coded α] (l : List α) : l.length ≤ (enc l).length := by
  have hcount : (enc l.length).length = l.length + 1 := by
    simp [enc]
  have hlist : enc l = enc l.length ++ l.flatMap enc := rfl
  rw [hlist, length_append, hcount]
  omega

instance : Coded String := ofLeftInverse String.toList String.ofList fun _ => String.ofList_toList

instance [Coded α] : Coded (Option α) :=
  ofLeftInverse Option.toList List.head? fun o => by cases o <;> rfl

theorem ofList_toList {V : Type} (t : Std.ExtTreeMap String V compare) :
    Std.ExtTreeMap.ofList t.toList compare = t := by
  refine Std.ExtTreeMap.ext_getElem? fun k => ?_
  cases hk : t[k]? with
  | some v =>
    refine Std.ExtTreeMap.getElem?_ofList_of_mem (k := k) Std.ReflCmp.compare_self
      Std.ExtTreeMap.distinct_keys_toList ?_
    exact Std.ExtTreeMap.mem_toList_iff_getElem?_eq_some.mpr hk
  | none =>
    refine Std.ExtTreeMap.getElem?_ofList_of_contains_eq_false ?_
    rw [← Bool.not_eq_true, contains_iff_mem]
    intro hmem
    obtain ⟨⟨k', v⟩, hpair, rfl⟩ := mem_map.mp hmem
    rw [Std.ExtTreeMap.mem_toList_iff_getElem?_eq_some, hk] at hpair
    cases hpair

instance {V : Type} [Coded V] : Coded (Std.ExtTreeMap String V compare) :=
  ofLeftInverse Std.ExtTreeMap.toList (fun l => Std.ExtTreeMap.ofList l compare) ofList_toList

end Coded

end Otterio
