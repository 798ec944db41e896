import Mathlib

/-!
# Texts that determine their parts

A text built by concatenation determines its parts when each part can be told from what follows it.

* `flatMap_append_inj`, `intercalate_append_inj`: a list of parts, one after the other or with a
  separator, up to a stop symbol.
* `decimal`: the decimal text of an integer; `bracketed`: the text of a slice of integers, as `%v`
  prints it.
* `jsonObject`: the JSON text of a list of string pairs, as `encoding/json` writes it
  (`jsonObject_inj`).
-/

namespace Otterio

open List

variable {α β : Type}

/-! ## Concatenations -/

variable {a b s t : List β}

/-- A part ends where the first symbol without `p` stands. -/
theorem append_inj_of_all {p : β → Prop} (ha : ∀ x ∈ a, p x) (hb : ∀ x ∈ b, p x)
    (hs : ∀ x ∈ s.head?, ¬ p x) (ht : ∀ x ∈ t.head?, ¬ p x) (h : a ++ s = b ++ t) : a = b ∧ s = t := by
  induction a generalizing b with
  | nil => cases b with
    | nil => exact ⟨rfl, h⟩
    | cons y b =>
      rw [nil_append] at h
      exact absurd (hb y mem_cons_self) (hs y (by simp [h]))
  | cons x a ih => cases b with
    | nil =>
      rw [nil_append] at h
      exact absurd (ha x mem_cons_self) (ht x (by simp [← h]))
    | cons y b =>
      rw [cons_append, cons_append, cons.injEq] at h
      obtain ⟨rfl, h⟩ := h
      obtain ⟨rfl, rfl⟩ := ih (fun z hz => ha z (mem_cons_of_mem _ hz))
        (fun z hz => hb z (mem_cons_of_mem _ hz)) h
      exact ⟨rfl, rfl⟩

/-- A part up to the last stop symbol. -/
theorem append_cons_inj_of_not_mem {z : β} (hs : z ∉ s) (ht : z ∉ t)
    (h : a ++ z :: s = b ++ z :: t) : a = b ∧ s = t := by
  have hrev : s.reverse ++ z :: a.reverse = t.reverse ++ z :: b.reverse := by
    simpa using congrArg reverse h
  have hno : ∀ {l : List β}, z ∉ l → ∀ x ∈ l.reverse, x ≠ z := by
    rintro l hl x hx rfl
    exact hl (mem_reverse.mp hx)
  obtain ⟨hst, hab⟩ := append_inj_of_all (p := (· ≠ z)) (hno hs) (hno ht) (by simp) (by simp) hrev
  exact ⟨reverse_injective (cons.inj hab).2, reverse_injective hst⟩

section Lists

variable {e : α → List β} {P S : List β → Prop} {l m : List α}

/-- A list of parts: `P` is what may follow a part, `S` what ends the list. -/
theorem flatMap_append_inj (hnext : ∀ x s, P (e x ++ s)) (hend : ∀ s, S s → P s)
    (hpart : ∀ x y s t, P s → P t → e x ++ s = e y ++ t → x = y ∧ s = t)
    (hstop : ∀ x s, ¬ S (e x ++ s)) (hs : S s) (ht : S t)
    (h : l.flatMap e ++ s = m.flatMap e ++ t) : l = m ∧ s = t := by
  have hfollow : ∀ (l : List α) {s : List β}, S s → P (l.flatMap e ++ s) := by
    rintro (- | ⟨x, l⟩) s hs
    · exact hend s hs
    · rw [flatMap_cons, append_assoc]
      exact hnext x _
  induction l generalizing m with
  | nil => cases m with
    | nil => exact ⟨rfl, h⟩
    | cons y m =>
      rw [flatMap_nil, nil_append, flatMap_cons, append_assoc] at h
      exact absurd (h ▸ hs) (hstop y _)
  | cons x l ih => cases m with
    | nil =>
      rw [flatMap_nil, nil_append, flatMap_cons, append_assoc] at h
      exact absurd (h ▸ ht) (hstop x _)
    | cons y m =>
      rw [flatMap_cons, flatMap_cons, append_assoc, append_assoc] at h
      obtain ⟨rfl, hrest⟩ := hpart x y _ _ (hfollow l hs) (hfollow m ht) h
      obtain ⟨rfl, rfl⟩ := ih hrest
      exact ⟨rfl, rfl⟩

theorem intercalate_map_cons (sep : β) (x : α) (l : List α) :
    [sep].intercalate ((x :: l).map e) = e x ++ l.flatMap fun y => sep :: e y := by
  induction l generalizing x with
  | nil => simp [intercalate]
  | cons y l ih =>
    have : [sep].intercalate ((x :: y :: l).map e) = e x ++ sep :: [sep].intercalate ((y :: l).map e) := by
      simp [intercalate]
    rw [this, ih, flatMap_cons, cons_append]

/-- A list of parts with a separator between them and a stop symbol at the end. -/
theorem intercalate_append_inj {sep stop : β} (hne : sep ≠ stop)
    (hpart : ∀ x y s t, (s.head? = some sep ∨ s.head? = some stop) →
      (t.head? = some sep ∨ t.head? = some stop) → e x ++ s = e y ++ t → x = y ∧ s = t)
    (hstop : ∀ x s, (e x ++ s).head? ≠ some stop)
    (h : [sep].intercalate (l.map e) ++ stop :: s = [sep].intercalate (m.map e) ++ stop :: t) :
    l = m ∧ s = t := by
  have hrest : ∀ {l m : List α}, (l.flatMap fun y => sep :: e y) ++ stop :: s =
      (m.flatMap fun y => sep :: e y) ++ stop :: t → l = m ∧ stop :: s = stop :: t := by
    intro l m h
    refine flatMap_append_inj (P := fun s => s.head? = some sep ∨ s.head? = some stop)
      (S := fun s => s.head? = some stop) (by simp) (fun _ => .inr) ?_ ?_ rfl rfl h
    · intro x y s t hs ht h
      exact hpart x y s t hs ht (cons.inj h).2
    · simp [hne]
  cases l with
  | nil => cases m with
    | nil => exact ⟨rfl, by simpa [intercalate] using h⟩
    | cons y m =>
      rw [intercalate_map_cons, append_assoc] at h
      exact absurd (congrArg head? h).symm (hstop y _)
  | cons x l => cases m with
    | nil =>
      rw [intercalate_map_cons, append_assoc] at h
      exact absurd (congrArg head? h) (hstop x _)
    | cons y m =>
      rw [intercalate_map_cons, intercalate_map_cons, append_assoc, append_assoc] at h
      have hhead : ∀ (l : List α) (s : List β), ((l.flatMap fun y => sep :: e y) ++ stop :: s).head? = some sep ∨
          ((l.flatMap fun y => sep :: e y) ++ stop :: s).head? = some stop := by
        rintro (- | ⟨x, l⟩) s <;> simp
      obtain ⟨rfl, htail⟩ := hpart x y _ _ (hhead l s) (hhead m t) h
      obtain ⟨rfl, hst⟩ := hrest htail
      exact ⟨rfl, (cons.inj hst).2⟩

end Lists

/-! ## Numbers -/

def decimal (n : Int) : List Char := (toString n).toList

/-- The symbols of decimal texts. -/
def isNumeral (c : Char) : Prop := c.isDigit = true ∨ c = '-'

instance (c : Char) : Decidable (isNumeral c) := inferInstanceAs (Decidable (_ ∨ _))

variable {c : Char}

theorem isDigit_of_mem_toDigits {n : Nat} (h : c ∈ Nat.toDigits 10 n) : c.isDigit = true :=
  Nat.isDigit_of_mem_toDigits (by decide) (by decide) h

theorem decimal_natCast (n : Nat) : decimal n = Nat.toDigits 10 n := Nat.toList_repr

variable {n : Int}

theorem isNumeral_of_mem_decimal (h : c ∈ decimal n) : isNumeral c := by
  cases n with
  | ofNat m =>
    rw [Int.ofNat_eq_natCast, decimal_natCast] at h
    exact .inl (isDigit_of_mem_toDigits h)
  | negSucc m =>
    have hneg : decimal (Int.negSucc m) = '-' :: Nat.toDigits 10 (m + 1) := by
      rw [← Nat.toList_repr]
      exact String.toList_append
    rw [hneg, mem_cons] at h
    exact h.elim .inr fun h => .inl (isDigit_of_mem_toDigits h)

variable {m : Int}

theorem decimal_inj (h : decimal m = decimal n) : m = n := Int.repr_inj.mp (String.toList_inj.mp h)

theorem decimal_ne_nil (n : Int) : decimal n ≠ [] := by
  intro h
  cases n with
  | ofNat m =>
    rw [Int.ofNat_eq_natCast, decimal_natCast] at h
    exact Nat.toDigits_ne_nil h
  | negSucc m => simp [decimal, toString, Int.repr] at h

variable {s t : List Char}

theorem decimal_append_inj (hs : ∀ c ∈ s.head?, ¬ isNumeral c) (ht : ∀ c ∈ t.head?, ¬ isNumeral c)
    (h : decimal m ++ s = decimal n ++ t) : m = n ∧ s = t := by
  obtain ⟨hmn, hst⟩ := append_inj_of_all (fun _ => isNumeral_of_mem_decimal)
    (fun _ => isNumeral_of_mem_decimal) hs ht h
  exact ⟨decimal_inj hmn, hst⟩

/-- `fmt.Sprintf("%v", ns)` of a slice of integers. -/
def bracketed (ns : List Int) : List Char := '[' :: [' '].intercalate (ns.map decimal) ++ [']']

theorem bracketed_append_inj {l m : List Int} (h : bracketed l ++ s = bracketed m ++ t) : l = m ∧ s = t := by
  have hbody : [' '].intercalate (l.map decimal) ++ ']' :: s = [' '].intercalate (m.map decimal) ++ ']' :: t := by
    simpa [bracketed] using h
  refine intercalate_append_inj (by decide) (fun x y s t hs ht h => ?_) (fun x s hhead => ?_) hbody
  · have hstop : ∀ {s : List Char}, s.head? = some ' ' ∨ s.head? = some ']' → ∀ c ∈ s.head?, ¬ isNumeral c := by
      rintro s (hs | hs) c hc <;> rw [hs] at hc <;> cases hc <;> decide
    exact decimal_append_inj (hstop hs) (hstop ht) h
  · obtain ⟨c, cs, hc⟩ := exists_cons_of_ne_nil (decimal_ne_nil x)
    rw [hc, cons_append, head?_cons, Option.some.injEq] at hhead
    have := isNumeral_of_mem_decimal (n := x) (c := c) (by simp [hc])
    rw [hhead] at this
    exact absurd this (by decide)

/-! ## JSON -/

/-- The characters that are escaped by a letter, and the letter. -/
def jsonLetters : List (Char × Char) :=
  [('"', '"'), ('\\', '\\'), ('\x08', 'b'), ('\x0c', 'f'), ('\n', 'n'), ('\r', 'r'), ('\t', 't')]

def jsonShortEscape (c : Char) : Option Char := (jsonLetters.find? (·.1 == c)).map Prod.snd

/-- The other characters that are escaped: controls, the HTML ones and two line separators. -/
def jsonLongEscape (c : Char) : Bool := c.toNat < 0x20 || [0x3c, 0x3e, 0x26, 0x2028, 0x2029].contains c.toNat

def hex4 (n : Nat) : List Char := [n / 4096 % 16, n / 256 % 16, n / 16 % 16, n % 16].map Nat.digitChar

def jsonChar (c : Char) : List Char :=
  match jsonShortEscape c with
  | some e => ['\\', e]
  | none => if jsonLongEscape c then '\\' :: 'u' :: hex4 c.toNat else [c]

def jsonString (s : String) : List Char := '"' :: s.toList.flatMap jsonChar ++ ['"']

def jsonMember (e : String × String) : List Char := jsonString e.1 ++ ':' :: jsonString e.2

def jsonObject (entries : List (String × String)) : List Char :=
  '{' :: [','].intercalate (entries.map jsonMember) ++ ['}']

variable {e : Char}

theorem mem_of_jsonShortEscape (h : jsonShortEscape c = some e) : (c, e) ∈ jsonLetters := by
  obtain ⟨p, hp, rfl⟩ := Option.map_eq_some_iff.mp h
  have hc : p.1 = c := by simpa using find?_some hp
  rw [← hc]
  exact mem_of_find?_eq_some hp

theorem jsonShortEscape_inj {d : Char} (hc : jsonShortEscape c = some e) (hd : jsonShortEscape d = some e) :
    c = d := by
  have : ∀ p ∈ jsonLetters, ∀ q ∈ jsonLetters, p.2 = q.2 → p.1 = q.1 := by decide
  exact this _ (mem_of_jsonShortEscape hc) _ (mem_of_jsonShortEscape hd) rfl

theorem jsonShortEscape_ne_u : jsonShortEscape c ≠ some 'u' := by
  intro h
  have : ∀ p ∈ jsonLetters, p.2 ≠ 'u' := by decide
  exact this _ (mem_of_jsonShortEscape h) rfl

theorem jsonShortEscape_eq_none (h : jsonShortEscape c = none) : c ≠ '"' ∧ c ≠ '\\' := by
  constructor
  all_goals
    rintro rfl
    exact absurd h (by decide)

theorem digitChar_inj {m n : Nat} (hm : m < 16) (hn : n < 16) (h : m.digitChar = n.digitChar) : m = n := by
  have : ∀ m < 16, ∀ n < 16, Nat.digitChar m = Nat.digitChar n → m = n := by decide
  exact this m hm n hn h

theorem hex4_append_inj {m n : Nat} (hm : m < 65536) (hn : n < 65536) (h : hex4 m ++ s = hex4 n ++ t) :
    m = n ∧ s = t := by
  simp only [hex4, map_cons, map_nil, cons_append, nil_append, List.cons.injEq] at h
  obtain ⟨h3, h2, h1, h0, hst⟩ := h
  have h3 := digitChar_inj (Nat.mod_lt _ (by decide)) (Nat.mod_lt _ (by decide)) h3
  have h2 := digitChar_inj (Nat.mod_lt _ (by decide)) (Nat.mod_lt _ (by decide)) h2
  have h1 := digitChar_inj (Nat.mod_lt _ (by decide)) (Nat.mod_lt _ (by decide)) h1
  have h0 := digitChar_inj (Nat.mod_lt _ (by decide)) (Nat.mod_lt _ (by decide)) h0
  exact ⟨by omega, hst⟩

theorem toNat_lt_of_jsonLongEscape (h : jsonLongEscape c = true) : c.toNat < 65536 := by
  unfold jsonLongEscape at h
  grind

/-- The text of a character is told from what follows it. -/
theorem jsonChar_append_inj {d : Char} (h : jsonChar c ++ s = jsonChar d ++ t) : c = d ∧ s = t := by
  unfold jsonChar at h
  cases hc : jsonShortEscape c with
  | some e => cases hd : jsonShortEscape d with
    | some e' =>
      simp only [hc, hd, cons_append, nil_append, List.cons.injEq, true_and] at h
      obtain ⟨rfl, hst⟩ := h
      exact ⟨jsonShortEscape_inj hc hd, hst⟩
    | none =>
      have hne := (jsonShortEscape_eq_none hd).2
      simp only [hc, hd] at h
      split at h
      · simp only [cons_append, List.cons.injEq, true_and] at h
        exact absurd (h.1 ▸ hc) jsonShortEscape_ne_u
      · simp only [cons_append, List.cons.injEq] at h
        exact absurd h.1.symm hne
  | none =>
    have hnec := (jsonShortEscape_eq_none hc).2
    cases hd : jsonShortEscape d with
    | some e' =>
      simp only [hc, hd] at h
      split at h
      · simp only [cons_append, List.cons.injEq, true_and] at h
        exact absurd (h.1 ▸ hd) jsonShortEscape_ne_u
      · simp only [cons_append, List.cons.injEq] at h
        exact absurd h.1 hnec
    | none =>
      have hned := (jsonShortEscape_eq_none hd).2
      simp only [hc, hd] at h
      split at h <;> split at h <;>
        simp only [cons_append, nil_append, List.cons.injEq, true_and] at h
      · rename_i hlc hld
        obtain ⟨hn, hst⟩ := hex4_append_inj (toNat_lt_of_jsonLongEscape hlc)
          (toNat_lt_of_jsonLongEscape hld) h
        exact ⟨Char.toNat_inj.mp hn, hst⟩
      · exact absurd h.1.symm hned
      · exact absurd h.1 hnec
      · exact h

theorem head_jsonChar_ne_quote (c : Char) (s : List Char) : (jsonChar c ++ s).head? ≠ some '"' := by
  unfold jsonChar
  cases hc : jsonShortEscape c with
  | some e => simp
  | none =>
    have hne := (jsonShortEscape_eq_none hc).1
    cases hlong : jsonLongEscape c <;> simp [hne]

theorem jsonString_append_inj {a b : String} (h : jsonString a ++ s = jsonString b ++ t) : a = b ∧ s = t := by
  have hbody : a.toList.flatMap jsonChar ++ '"' :: s = b.toList.flatMap jsonChar ++ '"' :: t := by
    simpa [jsonString] using h
  obtain ⟨hab, hst⟩ := flatMap_append_inj (P := fun _ => True) (S := fun s => s.head? = some '"')
    (fun _ _ => trivial) (fun _ _ => trivial) (fun _ _ _ _ _ _ => jsonChar_append_inj)
    head_jsonChar_ne_quote rfl rfl hbody
  exact ⟨String.toList_inj.mp hab, (cons.inj hst).2⟩

theorem jsonMember_append_inj {a b : String × String} (h : jsonMember a ++ s = jsonMember b ++ t) :
    a = b ∧ s = t := by
  rw [jsonMember, jsonMember, append_assoc, append_assoc] at h
  obtain ⟨hk, h⟩ := jsonString_append_inj h
  obtain ⟨hv, hst⟩ := jsonString_append_inj (cons.inj h).2
  exact ⟨Prod.ext hk hv, hst⟩

variable {l : List (String × String)}

/-- The text of an object determines its members. -/
theorem jsonObject_inj {m : List (String × String)} (h : jsonObject l = jsonObject m) : l = m := by
  have hbody : [','].intercalate (l.map jsonMember) ++ ['}'] = [','].intercalate (m.map jsonMember) ++ ['}'] := by
    simpa [jsonObject] using h
  refine (intercalate_append_inj (by decide) (fun _ _ _ _ _ _ => jsonMember_append_inj) ?_ hbody).1
  intro x s
  simp [jsonMember, jsonString]

/-! ### No control character in a JSON text -/

theorem toNat_digitChar_ge : ∀ n < 16, 0x20 ≤ (Nat.digitChar n).toNat := by decide

variable {x : Char}

theorem toNat_ge_of_mem_jsonChar (h : x ∈ jsonChar c) : 0x20 ≤ x.toNat := by
  unfold jsonChar at h
  split at h
  · rename_i e he
    have hletters : ∀ p ∈ jsonLetters, 0x20 ≤ p.2.toNat := by decide
    simp only [mem_cons, not_mem_nil, or_false] at h
    obtain rfl | rfl := h
    · decide
    · exact hletters _ (mem_of_jsonShortEscape he)
  · split at h
    · simp only [hex4, map_cons, map_nil, mem_cons, not_mem_nil, or_false] at h
      obtain rfl | rfl | rfl | rfl | rfl | rfl := h
      · decide
      · decide
      all_goals exact toNat_digitChar_ge _ (Nat.mod_lt _ (by decide))
    · rename_i hlong
      rw [mem_singleton] at h
      subst h
      simp only [jsonLongEscape, Bool.or_eq_true, decide_eq_true_eq, not_or] at hlong
      omega

theorem toNat_ge_of_mem_jsonString {s : String} (h : x ∈ jsonString s) : 0x20 ≤ x.toNat := by
  simp only [jsonString, cons_append, mem_cons, mem_append, mem_flatMap, not_mem_nil, or_false] at h
  obtain rfl | ⟨c, -, hc⟩ | rfl := h
  · decide
  · exact toNat_ge_of_mem_jsonChar hc
  · decide

theorem toNat_ge_of_mem_jsonMember {e : String × String} (h : x ∈ jsonMember e) : 0x20 ≤ x.toNat := by
  rw [jsonMember, mem_append, mem_cons] at h
  obtain h | rfl | h := h
  · exact toNat_ge_of_mem_jsonString h
  · decide
  · exact toNat_ge_of_mem_jsonString h

theorem toNat_ge_of_mem_jsonObject (h : x ∈ jsonObject l) : 0x20 ≤ x.toNat := by
  rw [jsonObject, mem_append, mem_cons, mem_singleton] at h
  obtain (rfl | h) | rfl := h
  · decide
  · cases l with
    | nil => simp [intercalate] at h
    | cons e l =>
      rw [intercalate_map_cons, mem_append, mem_flatMap] at h
      obtain h | ⟨e', -, h⟩ := h
      · exact toNat_ge_of_mem_jsonMember h
      · obtain rfl | h := mem_cons.mp h
        · decide
        · exact toNat_ge_of_mem_jsonMember h
  · decide

end Otterio
