import Otterio.Hash.Reader

/-!
# Which declared digests are verified

A reader checks a digest when the end of its source passes through it. A limit that is reached reports the end
itself, so what is inside of it is not checked.

* `Stream.checks`: the checks that every `io.EOF` has passed; `Stream.possible`: the checks that an `io.EOF`
  may have to pass (`run_spec`).
* `Block`: of a block, the MD5 sum of its first call is checked; its SHA-256 sum is checked if the first call
  declares one, against the one of the last call (`nest_shape`).
* `Covered`: the declared digests are among the checks that are always made, and no check is for something
  else.
-/

namespace Otterio.Hash

open List Option

/-! ## Checks -/

inductive Check where
  | md5 (sum : Bytes)
  | sha256 (sum : Bytes)
deriving DecidableEq

def Check.Passes (h : Digests) (bytes : Bytes) : Check → Prop
  | .md5 sum => h.md5 bytes = sum
  | .sha256 sum => h.sha256 bytes = sum

def ReadError.IsDigest : ReadError → Prop
  | .verify _ _ | .badDigest _ _ | .sha256Mismatch _ _ => True
  | .eof | .source _ => False

namespace Stream

variable {S : Type}

/-- The limits leave room for `n` bytes. -/
def Reaches : Stream S → Int → Prop
  | .source _, _ => True
  | .limit m r, n => n ≤ m ∧ r.Reaches n
  | .etag _ _ _ r, n => r.Reaches n
  | .wrap r, n => r.Reaches n
  | .hash _ r, n => r.Reaches n

instance decidableReaches : (st : Stream S) → (n : Int) → Decidable (st.Reaches n)
  | .source _, _ => .isTrue trivial
  | .limit m r, n => @instDecidableAnd _ _ (Int.decLe n m) (decidableReaches r n)
  | .etag _ _ _ r, n => decidableReaches r n
  | .wrap r, n => decidableReaches r n
  | .hash _ r, n => decidableReaches r n

def md5Check (checksum : Bytes) : List Check := if checksum = [] then [] else [.md5 checksum]

def sha256Check (contentSHA256 : Bytes) (sha256 : Option Bytes) : List Check :=
  if sha256.isSome then [.sha256 contentSHA256] else []

theorem sha256Check_map (contentSHA256 : Bytes) (sha256 : Option Bytes) (g : Bytes → Bytes) :
    sha256Check contentSHA256 (sha256.map g) = sha256Check contentSHA256 sha256 := by
  rw [sha256Check, isSome_map, sha256Check]

/-- The checks, without those inside of a limit that stops the end of its source. -/
def checksWith (stops : Stream S → Int → Bool) : Stream S → List Check
  | .source _ => []
  | .limit n r => if stops r n then [] else r.checksWith stops
  | .etag _ checksum _ r => md5Check checksum ++ r.checksWith stops
  | .wrap r => r.checksWith stops
  | .hash f r => sha256Check f.contentSHA256 f.sha256 ++ r.checksWith stops

/-- The checks that are always made: a limit that can be reached cuts off those inside of it. -/
def checks (st : Stream S) : List Check := st.checksWith fun r n => decide (r.Reaches n)

/-- The checks that may be made: behind a limit of 0 bytes there is none. -/
def possible (st : Stream S) : List Check := st.checksWith fun _ n => decide (n ≤ 0)

def Fresh : Stream S → Prop
  | .source _ => True
  | .limit n r => 0 ≤ n ∧ r.Fresh
  | .etag md5 _ _ r => md5 = [] ∧ r.Fresh
  | .wrap r => r.Fresh
  | .hash f r => (∀ written, f.sha256 = some written → written = []) ∧ r.Fresh

/-- The reader after it has delivered `bytes`. -/
def after : Stream S → Bytes → S → Stream S
  | .source _, _, s => .source s
  | .limit n r, bytes, s => .limit (n - bytes.length) (r.after bytes s)
  | .etag md5 checksum readN r, bytes, s =>
    .etag (md5 ++ bytes) checksum (readN + bytes.length) (r.after bytes s)
  | .wrap r, bytes, s => .wrap (r.after bytes s)
  | .hash f r, bytes, s =>
    .hash { f with bytesRead := f.bytesRead + bytes.length, sha256 := f.sha256.map (· ++ bytes) }
      (r.after bytes s)

def origin : Stream S → S
  | .source s => s
  | .limit _ r => r.origin
  | .etag _ _ _ r => r.origin
  | .wrap r => r.origin
  | .hash _ r => r.origin

theorem after_nil (st : Stream S) : st.after [] st.origin = st := by
  induction st with
  | source s => rfl
  | limit n r ih => simp [after, origin, ih]
  | etag md5 checksum readN r ih => simp [after, origin, ih]
  | wrap r ih => simp [after, origin, ih]
  | hash f r ih =>
    obtain ⟨_, _, _, _, _, sha256⟩ := f
    cases sha256 <;> simp [after, origin, ih]

variable {st : Stream S}

theorem Reaches.mono {m n : Int} (h : st.Reaches n) (hle : m ≤ n) : st.Reaches m := by
  induction st with
  | source s => exact trivial
  | limit k r ih => exact ⟨hle.trans h.1, ih h.2⟩
  | etag md5 checksum readN r ih => exact ih h
  | wrap r ih => exact ih h
  | hash f r ih => exact ih h

theorem Fresh.reaches_zero (h : st.Fresh) : st.Reaches 0 := by
  induction st with
  | source s => exact trivial
  | limit n r ih => exact ⟨h.1, ih h.2⟩
  | etag md5 checksum readN r ih => exact ih h.2
  | wrap r ih => exact ih h
  | hash f r ih => exact ih h.2

theorem mem_append_mono {own inner outer : List Check} (h : ∀ c ∈ inner, c ∈ outer) :
    ∀ c ∈ own ++ inner, c ∈ own ++ outer := fun c hc =>
  mem_append.mpr ((mem_append.mp hc).imp_right (h c))

theorem Fresh.checks_subset (h : st.Fresh) : ∀ c ∈ st.checks, c ∈ st.possible := by
  induction st with
  | source s => exact fun c hc => hc
  | limit n r ih =>
    intro c hc
    unfold checks checksWith at hc
    unfold possible checksWith
    split_ifs at hc with hreach
    · cases hc
    have hpos : ¬ n ≤ 0 := by
      intro hzero
      obtain rfl : n = 0 := le_antisymm hzero h.1
      simp [h.2.reaches_zero] at hreach
    rw [if_neg (by simpa using hpos)]
    exact ih h.2 c hc
  | etag md5 checksum readN r ih => exact mem_append_mono (ih h.2)
  | wrap r ih => exact ih h
  | hash f r ih => exact mem_append_mono (ih h.2)

end Stream

/-! ## One read -/

theorem not_digest {e : ReadError} (h : ¬ e.IsDigest) : e = .eof ∨ ∃ id, e = .source id := by
  cases e with
  | eof => exact Or.inl rfl
  | source id => exact Or.inr ⟨id, rfl⟩
  | verify _ _ | badDigest _ _ | sha256Mismatch _ _ => exact absurd trivial h

/-- `f` makes the checks `own` of the bytes at the end of the source: the end goes on if they pass, else there
is the error of a check. The errors of other checks stay such. -/
structure Guards (h : Digests) (bytes : Bytes) (own : List Check) (f : Option ReadError → Option ReadError) :
    Prop where
  pass : (∀ c ∈ own, c.Passes h bytes) → f (some .eof) = some .eof
  fail : (¬ ∀ c ∈ own, c.Passes h bytes) → ∃ e, f (some .eof) = some e ∧ e.IsDigest
  digest : ∀ e, e.IsDigest → ∃ e', f (some e) = some e' ∧ e'.IsDigest
  none : f none = none
  source : ∀ id, f (some (.source id)) = some (.source id)

section Guards

variable {h : Digests} {bytes : Bytes} {own inner may : List Check} {f : Option ReadError → Option ReadError}
  {err : Option ReadError}

theorem etagError_guards (h : Digests) (checksum written : Bytes) :
    Guards h written (Stream.md5Check checksum) (etagError h checksum written) := by
  have hown : (∀ c ∈ Stream.md5Check checksum, c.Passes h written) ↔
      ¬ (checksum ≠ [] ∧ h.md5 written ≠ checksum) := by
    unfold Stream.md5Check
    split_ifs with hnil <;> simp [Check.Passes, hnil]
  refine ⟨fun hpass => if_neg fun hbad => hown.mp hpass hbad.2, fun hfail => ?_, fun e hd => ⟨e, if_neg ?_, hd⟩,
    if_neg fun hbad => (by cases hbad.1), fun id => if_neg fun hbad => (by cases hbad.1)⟩
  · exact ⟨_, if_pos ⟨rfl, not_not.mp (hown.not.mp hfail)⟩, trivial⟩
  · rintro ⟨he, -⟩
    cases he
    exact hd

theorem hashError_guards (h : Digests) (contentSHA256 : Bytes) {sha256 : Option Bytes}
    (hw : ∀ written, sha256 = some written → written = bytes) :
    Guards h bytes (Stream.sha256Check contentSHA256 sha256) (hashError h contentSHA256 sha256) := by
  have hdigest : ∀ e : ReadError, e.IsDigest →
      ∃ e', hashError h contentSHA256 sha256 (some e) = some e' ∧ e'.IsDigest := by
    intro e hd
    cases e with
    | eof | source _ => exact hd.elim
    | verify _ _ | badDigest _ _ | sha256Mismatch _ _ => exact ⟨_, rfl, trivial⟩
  cases sha256 with
  | none => exact ⟨fun _ => rfl, fun hfail => absurd (fun c hc => (by cases hc)) hfail, hdigest, rfl, fun _ => rfl⟩
  | some written =>
    obtain rfl := hw written rfl
    refine ⟨fun hpass => if_neg ?_, fun hfail => ⟨_, if_pos fun heq => hfail fun c hc => ?_, trivial⟩, hdigest, rfl,
      fun _ => rfl⟩
    · exact not_not.mpr (hpass _ (mem_singleton_self _)).symm
    · obtain rfl : c = .sha256 contentSHA256 := mem_singleton.mp hc
      exact heq.symm

theorem Guards.spec (g : Guards h bytes own f) (heof : err = some .eof → ∀ c ∈ inner, c.Passes h bytes)
    (hdigest : ∀ e, err = some e → e.IsDigest → ∃ c ∈ may, ¬ c.Passes h bytes) :
    (f err = some .eof → ∀ c ∈ own ++ inner, c.Passes h bytes) ∧
      ∀ e, f err = some e → e.IsDigest → ∃ c ∈ own ++ may, ¬ c.Passes h bytes := by
  have hmay : (∃ c ∈ own ++ may, ¬ c.Passes h bytes) ↔
      (¬ ∀ c ∈ own, c.Passes h bytes) ∨ ∃ c ∈ may, ¬ c.Passes h bytes := by
    simp [or_and_right, exists_or]
  rw [hmay, forall_mem_append]
  cases err with
  | none => simp [g.none]
  | some e' =>
    by_cases hd : e'.IsDigest
    · obtain ⟨e, he, hd'⟩ := g.digest e' hd
      refine ⟨fun h => ?_, fun _ _ _ => .inr (hdigest e' rfl hd)⟩
      rw [he] at h
      cases h
      exact hd'.elim
    · rcases not_digest hd with rfl | ⟨id, rfl⟩
      · by_cases hpass : ∀ c ∈ own, c.Passes h bytes
        · rw [g.pass hpass]
          refine ⟨fun _ => ⟨hpass, heof rfl⟩, fun e he hd => ?_⟩
          cases he
          exact hd.elim
        · obtain ⟨e, he, hd'⟩ := g.fail hpass
          refine ⟨fun h => ?_, fun _ _ _ => .inl hpass⟩
          rw [he] at h
          cases h
          exact hd'.elim
      · rw [g.source]
        refine ⟨fun h => (by cases h), fun e he hd => ?_⟩
        cases he
        exact hd.elim

/-- The end of the source goes on if it has passed the checks `inner` and passes the checks `own`. -/
theorem Guards.ended (g : Guards h bytes own f) (hok : (∀ c ∈ inner, c.Passes h bytes) → err = some .eof)
    (hbad : (¬ ∀ c ∈ inner, c.Passes h bytes) → ∃ e, err = some e ∧ e.IsDigest) :
    ((∀ c ∈ own ++ inner, c.Passes h bytes) → f err = some .eof) ∧
      ((¬ ∀ c ∈ own ++ inner, c.Passes h bytes) → ∃ e, f err = some e ∧ e.IsDigest) := by
  rw [forall_mem_append]
  by_cases hinner : ∀ c ∈ inner, c.Passes h bytes
  · rw [hok hinner]
    exact ⟨fun hall => g.pass hall.1, fun hnot => g.fail fun hown => hnot ⟨hown, hinner⟩⟩
  · obtain ⟨e, rfl, hd⟩ := hbad hinner
    exact ⟨fun hall => absurd hall.2 hinner, fun _ => g.digest e hd⟩

end Guards

namespace Stream

variable {S : Type} {h : Digests} {src : Source S}

/-- What a read does to a reader that has delivered `total`. -/
structure ReadSpec (h : Digests) (st : Stream S) (total : Bytes) (k : Nat)
    (result : (Bytes × Option ReadError) × Stream S) : Prop where
  after : ∃ s, result.2 = st.after (total ++ result.1.1) s
  le : result.1.1.length ≤ k
  reaches : st.Reaches (total ++ result.1.1).length
  eof : result.1.2 = some .eof → ∀ c ∈ st.checks, c.Passes h (total ++ result.1.1)
  digest : ∀ e, result.1.2 = some e → e.IsDigest → ∃ c ∈ st.possible, ¬ c.Passes h (total ++ result.1.1)

variable {total : Bytes}

theorem read_spec (h : Digests) (src : Source S) {st : Stream S} (hfresh : st.Fresh)
    (hreach : st.Reaches total.length) (s : S) (k : Nat) :
    ReadSpec h st total k ((st.after total s).read h src k) := by
  induction st generalizing k with
  | source s₀ =>
    refine ⟨⟨_, rfl⟩, src.le s k, trivial, fun _ c hc => (by cases hc), fun e he hd => ?_⟩
    simp only [Stream.after, Stream.read] at he
    cases herr : (src.read s k).1.2 with
    | none =>
      rw [herr] at he
      cases he
    | some err =>
      rw [herr] at he
      obtain rfl := some.inj he
      cases err <;> exact hd.elim
  | limit n r ih =>
    simp only [Stream.after, Stream.read]
    by_cases hend : n - total.length ≤ 0
    · -- The limit is reached: `total` has `n` bytes.
      rw [if_pos hend]
      have hn : n = total.length := le_antisymm (by omega) hreach.1
      refine ⟨⟨s, by simp [Stream.after]⟩, Nat.zero_le k, by simpa using hreach, fun _ c hc => ?_, fun e he hd => ?_⟩
      · unfold checks checksWith at hc
        rw [if_pos (by simpa [hn] using hreach.2)] at hc
        cases hc
      · cases he
        exact hd.elim
    · rw [if_neg hend]
      have hbuffer : (if (k : Int) > n - total.length then (n - total.length).toNat else k) ≤ k ∧
          ((if (k : Int) > n - total.length then (n - total.length).toNat else k : Nat) : Int) ≤
            n - total.length := by
        split_ifs <;> omega
      generalize (if (k : Int) > n - total.length then (n - total.length).toNat else k) = buffer at hbuffer
      obtain ⟨⟨s', hafter⟩, hle, hreaches, heof, hdigest⟩ := ih hfresh.2 hreach.2 buffer
      refine ⟨⟨s', ?_⟩, hle.trans hbuffer.1, ⟨?_, hreaches⟩, fun he => ?_, fun e he hd => ?_⟩
      · simp only [Stream.after, hafter, length_append]
        congr 1
        omega
      · dsimp only
        rw [length_append]
        omega
      · unfold checks checksWith
        split_ifs with hstop
        · exact fun c hc => (by cases hc)
        · exact heof he
      · obtain ⟨c, hc, hfail⟩ := hdigest e he hd
        refine ⟨c, ?_, hfail⟩
        unfold possible checksWith
        rw [if_neg (by simp; omega)]
        exact hc
  | etag md5 checksum readN r ih =>
    obtain ⟨⟨s', hafter⟩, hle, hreaches, heof, hdigest⟩ := ih hfresh.2 hreach k
    obtain ⟨rfl, hfresh⟩ := hfresh
    simp only [Stream.after, Stream.read, nil_append]
    obtain ⟨heof', hdigest'⟩ := (etagError_guards h checksum _).spec heof hdigest
    exact ⟨⟨s', by simp [Stream.after, hafter, Nat.add_assoc]⟩, hle, hreaches, heof', hdigest'⟩
  | wrap r ih =>
    obtain ⟨⟨s', hafter⟩, hle, hreaches, heof, hdigest⟩ := ih hfresh hreach k
    exact ⟨⟨s', by simp [Stream.after, Stream.read, hafter]⟩, hle, hreaches, heof, hdigest⟩
  | hash f r ih =>
    obtain ⟨⟨s', hafter⟩, hle, hreaches, heof, hdigest⟩ := ih hfresh.2 hreach k
    obtain ⟨hsha, hfresh⟩ := hfresh
    simp only [Stream.after, Stream.read, Option.map_map, Function.comp_def, append_assoc]
    -- What was written to the hash is what was delivered.
    have hwritten : ∀ bytes written, f.sha256.map (· ++ bytes) = some written → written = bytes := by
      intro bytes written hw
      obtain ⟨w, hsome, rfl⟩ := map_eq_some_iff.mp hw
      rw [hsha w hsome, nil_append]
    obtain ⟨heof', hdigest'⟩ := (hashError_guards h f.contentSHA256 (hwritten _)).spec heof hdigest
    rw [sha256Check_map] at heof' hdigest'
    exact ⟨⟨s', by simp [Stream.after, hafter, Nat.add_assoc]⟩, hle, hreaches, heof', hdigest'⟩

variable {e : ReadError}

/-- What the reads of a run say about the bytes that it delivers. -/
theorem run_spec {st : Stream S} (hfresh : st.Fresh) (hreach : st.Reaches total.length) (s : S)
    (ks : List Nat) {bytes : Bytes} (hrun : (st.after total s).run h src ks = (bytes, some e)) :
    (e = .eof → ∀ c ∈ st.checks, c.Passes h (total ++ bytes)) ∧
      (e.IsDigest → ∃ c ∈ st.possible, ¬ c.Passes h (total ++ bytes)) := by
  induction ks generalizing total s bytes with
  | nil => cases hrun
  | cons k ks ih =>
    have hspec := read_spec h src hfresh hreach s k
    unfold run at hrun
    generalize (st.after total s).read h src k = result at hspec hrun
    obtain ⟨⟨out, err⟩, next⟩ := result
    cases err with
    | some e' =>
      obtain ⟨rfl, he⟩ := Prod.ext_iff.mp hrun
      obtain rfl := some.inj he
      exact ⟨fun heof => hspec.eof (heof ▸ rfl), hspec.digest e' rfl⟩
    | none =>
      obtain ⟨s', hnext⟩ := hspec.after
      dsimp only at hnext hrun
      subst hnext
      obtain ⟨hbytes, he⟩ := Prod.ext_iff.mp hrun
      obtain ⟨heof, hdigest⟩ := ih hspec.reaches s' (Prod.ext rfl he)
      dsimp only at hbytes
      rw [← hbytes, ← append_assoc]
      exact ⟨heof, hdigest⟩

/-! ## Runs that end -/

def ended : Source Unit where
  read _ _ := (([], some .eof), ())
  le _ _ := Nat.zero_le _

def endless : Source Unit where
  read _ k := ((List.replicate k 0, none), ())
  le _ k := (length_replicate (n := k)).le

def constant (x y : Bytes) (hx : x ≠ []) (hy : y ≠ []) : Digests where
  md5 _ := x
  sha256 _ := y
  md5_ne _ := hx
  sha256_ne _ := hy

def Blind (h : Digests) : Prop := ∀ c bytes bytes', Check.Passes h bytes c → Check.Passes h bytes' c

theorem blind_constant {x y : Bytes} (hx : x ≠ []) (hy : y ≠ []) : Blind (constant x y hx hy) := by
  intro c _ _ hc
  cases c <;> exact hc

theorem Blind.guards {bytes : Bytes} {own : List Check} {f : Option ReadError → Option ReadError}
    (hblind : Blind h) (g : Guards h bytes own f) : Guards h [] own f :=
  { g with
    pass := fun hpass => g.pass fun c hc => hblind c _ _ (hpass c hc)
    fail := fun hfail => g.fail fun hpass => hfail fun c hc => hblind c _ _ (hpass c hc) }

theorem hashError_blind (hblind : Blind h) (contentSHA256 : Bytes) (sha256 : Option Bytes) (g : Bytes → Bytes) :
    Guards h [] (sha256Check contentSHA256 sha256) (hashError h contentSHA256 (sha256.map g)) := by
  have hguards : Guards h ((sha256.map g).getD []) _ (hashError h contentSHA256 (sha256.map g)) :=
    hashError_guards h contentSHA256 fun written hw => by rw [hw, getD_some]
  rw [sha256Check_map] at hguards
  exact hblind.guards hguards

variable {st : Stream Unit}

/-- An endless source delivers a byte as long as the limits leave room. -/
theorem read_endless_more (hmore : st.Reaches (total.length + 1)) :
    ((st.after total ()).read h endless 1).1 = ([0], none) := by
  induction st with
  | source s => rfl
  | limit n r ih =>
    simp only [Stream.after, Stream.read]
    obtain ⟨hn, hr⟩ := hmore
    rw [if_neg (by omega), if_neg (by push_cast; omega)]
    exact ih hr
  | etag md5 checksum readN r ih =>
    simp only [Stream.after, Stream.read, ih hmore]
    rfl
  | wrap r ih => exact ih hmore
  | hash f r ih =>
    simp only [Stream.after, Stream.read, ih hmore]
    rfl

/-- When a limit is reached, only the checks outside of it are made. -/
theorem read_endless_end (hblind : Blind h) (hreach : st.Reaches total.length)
    (hfull : ¬ st.Reaches (total.length + 1)) (hpass : ∀ c ∈ st.checks, c.Passes h []) :
    ((st.after total ()).read h endless 1).1 = ([], some .eof) := by
  induction st with
  | source s => exact absurd trivial hfull
  | limit n r ih =>
    simp only [Stream.after, Stream.read]
    by_cases hend : n - total.length ≤ 0
    · rw [if_pos hend]
    · rw [if_neg hend, if_neg (by push_cast; omega)]
      have hinner : ¬ r.Reaches (total.length + 1) := fun hr => hfull ⟨by omega, hr⟩
      refine ih hreach.2 hinner fun c hc => hpass c ?_
      unfold checks checksWith
      rw [if_neg]
      · exact hc
      · intro hstop
        exact hinner ((of_decide_eq_true hstop).mono (by omega))
  | etag md5 checksum readN r ih =>
    obtain ⟨hown, hinner⟩ := forall_mem_append.mp hpass
    simp only [Stream.after, Stream.read, ih hreach hfull hinner]
    rw [(hblind.guards (etagError_guards h checksum _)).pass hown]
  | wrap r ih => exact ih hreach hfull hpass
  | hash f r ih =>
    obtain ⟨hown, hinner⟩ := forall_mem_append.mp hpass
    simp only [Stream.after, Stream.read, ih hreach hfull hinner, Option.map_map]
    rw [(hashError_blind hblind f.contentSHA256 f.sha256 _).pass hown]

theorem read_ended (hblind : Blind h) (st : Stream Unit) (k : Nat) :
    ((∀ c ∈ st.possible, c.Passes h []) → (st.read h ended k).1 = ([], some .eof)) ∧
      (¬ (∀ c ∈ st.possible, c.Passes h []) → ∃ e, (st.read h ended k).1 = ([], some e) ∧ e.IsDigest) := by
  suffices hends : (st.read h ended k).1.1 = [] ∧
      ((∀ c ∈ st.possible, c.Passes h []) → (st.read h ended k).1.2 = some .eof) ∧
      (¬ (∀ c ∈ st.possible, c.Passes h []) → ∃ e, (st.read h ended k).1.2 = some e ∧ e.IsDigest) by
    obtain ⟨hnil, hok, hbad⟩ := hends
    refine ⟨fun hpass => Prod.ext hnil (hok hpass), fun hfail => ?_⟩
    obtain ⟨e, he, hd⟩ := hbad hfail
    exact ⟨e, Prod.ext hnil he, hd⟩
  induction st generalizing k with
  | source s => exact ⟨rfl, fun _ => rfl, fun hfail => absurd (fun c hc => (by cases hc)) hfail⟩
  | limit n r ih =>
    simp only [Stream.read]
    by_cases hend : n ≤ 0
    · have hnil : (limit n r).possible = [] := if_pos (by simpa using hend)
      rw [if_pos hend, hnil]
      exact ⟨rfl, fun _ => rfl, fun hfail => absurd (fun c hc => (by cases hc)) hfail⟩
    · have hinner : (limit n r).possible = r.possible := if_neg (by simpa using hend)
      rw [if_neg hend, hinner]
      exact ih _
  | etag md5 checksum readN r ih =>
    obtain ⟨hnil, hok, hbad⟩ := ih k
    exact ⟨hnil, (hblind.guards (etagError_guards h checksum _)).ended hok hbad⟩
  | wrap r ih => exact ih k
  | hash f r ih =>
    obtain ⟨hnil, hok, hbad⟩ := ih k
    exact ⟨hnil, (hashError_blind hblind f.contentSHA256 f.sha256 _).ended hok hbad⟩

theorem possible_subset {st : Stream S} (hall : ∀ n : Nat, st.Reaches n) : ∀ c ∈ st.possible, c ∈ st.checks := by
  induction st with
  | source s => exact fun c hc => hc
  | limit n r ih =>
    have := (hall (n.toNat + 1)).1
    omega
  | etag md5 checksum readN r ih => exact mem_append_mono (ih hall)
  | wrap r ih => exact ih hall
  | hash f r ih => exact mem_append_mono (ih hall)

theorem run_of_read {st : Stream S} {k : Nat} {ks : List Nat} {bytes : Bytes} {e : ReadError}
    (hread : (st.read h src k).1 = (bytes, some e)) : st.run h src (k :: ks) = (bytes, some e) := by
  unfold run
  generalize st.read h src k = result at hread
  obtain ⟨⟨out, err⟩, next⟩ := result
  cases hread
  rfl

theorem run_endless (hblind : Blind h) (hpass : ∀ c ∈ st.checks, c.Passes h []) {m : Nat} (hreach : st.Reaches m)
    (hfull : ¬ st.Reaches (m + 1)) (hfresh : st.Fresh) (more : Nat) (total : Bytes) (htotal : total.length + more = m)
    (s : Unit) : ∃ bytes, (st.after total s).run h endless (List.replicate (more + 1) 1) = (bytes, some .eof) := by
  induction more generalizing total with
  | zero =>
    obtain rfl : total.length = m := by omega
    exact ⟨[], run_of_read (read_endless_end hblind hreach hfull hpass)⟩
  | succ more ih =>
    have hroom : st.Reaches (total.length + 1) := hreach.mono (by omega)
    have hread := read_endless_more (h := h) hroom
    have hreached : st.Reaches total.length := hroom.mono (by omega)
    obtain ⟨s', hafter⟩ := (read_spec h endless hfresh hreached s 1).after
    obtain ⟨bytes, hrun⟩ := ih (total ++ [0]) (by simp; omega)
    refine ⟨0 :: bytes, ?_⟩
    rw [replicate_succ]
    unfold run
    generalize (st.after total s).read h endless 1 = result at hread hafter
    obtain ⟨⟨out, err⟩, next⟩ := result
    cases hread
    have hnext : next = st.after (total ++ [0]) s := hafter
    dsimp only
    rw [hnext, hrun]
    rfl

theorem exists_eof (hfresh : st.Fresh) (hblind : Blind h) (hpass : ∀ c ∈ st.checks, c.Passes h []) :
    ∃ src ks bytes, st.run h src ks = (bytes, some .eof) := by
  by_cases hall : ∀ n : Nat, st.Reaches n
  · have hread := (read_ended hblind st 1).1 fun c hc => hpass c (possible_subset hall c hc)
    exact ⟨ended, [1], [], run_of_read hread⟩
  · push Not at hall
    obtain ⟨m, hm⟩ : ∃ m : Nat, st.Reaches m ∧ ¬ st.Reaches (m + 1) := by
      by_contra hnone
      push Not at hnone
      obtain ⟨n, hn⟩ := hall
      have hevery : ∀ n : Nat, st.Reaches n := by
        intro n
        induction n with
        | zero => exact hfresh.reaches_zero
        | succ n ih => exact hnone n ih
      exact hn (hevery n)
    obtain ⟨bytes, hrun⟩ := run_endless hblind hpass hm.1 hm.2 hfresh m [] (by simp) ()
    rw [after_nil st] at hrun
    exact ⟨endless, _, bytes, hrun⟩

theorem exists_digest (hblind : Blind h) (hfail : ¬ ∀ c ∈ st.possible, c.Passes h []) :
    ∃ src ks bytes e, st.run h src ks = (bytes, some e) ∧ e.IsDigest := by
  obtain ⟨e, hread, hd⟩ := (read_ended hblind st 1).2 hfail
  exact ⟨ended, [1], [], e, run_of_read hread, hd⟩

end Stream

/-! ## Blocks of calls -/

def Call.md5 (call : Call) : Bytes := (decodeString call.md5Hex).getD []

def Call.sha256 (call : Call) : Bytes := (decodeString call.sha256Hex).getD []

def Call.declared (call : Call) : List Check :=
  (if call.md5 = [] then [] else [.md5 call.md5]) ++ if call.sha256 = [] then [] else [.sha256 call.sha256]

namespace Block

variable (b : Block)

/-- The SHA-256 sum that is left after the calls were merged. -/
def lastSHA256 : Bytes := (b.merged.getLast?.getD b.first).sha256

/-- The limit inside of the etag reader. -/
def inside : Option Int := if b.first.size ≥ 0 then some b.first.size else none

/-- The limit around the etag reader, from a merged call. -/
def outside : Option Int :=
  if b.first.size ≥ 0 then none else (b.merged.map Call.size).find? fun size => decide (size ≥ 0)

/-- The number of bytes that the block leaves room for. -/
def limit : Option Int := b.inside.or b.outside

def sha256Check : List Check := if b.first.sha256 = [] then [] else [.sha256 b.lastSHA256]

def declared : List Check := b.first.declared ++ b.merged.flatMap Call.declared

end Block

/-- The blocks leave room for `n` bytes. -/
def Reachable (blocks : List Block) (n : Int) : Prop := ∀ b ∈ blocks, ∀ size ∈ b.limit, n ≤ size

instance (blocks : List Block) (n : Int) : Decidable (Reachable blocks n) :=
  inferInstanceAs (Decidable (∀ b ∈ blocks, ∀ size ∈ b.limit, n ≤ size))

/-- What is left of the checks inside of a limit. -/
def cut (stops : Int → Bool) (size : Option Int) (inner : List Check) : List Check :=
  match size with
  | some n => if stops n then [] else inner
  | none => inner

def checksOf (stops : List Block → Int → Bool) : List Block → List Check
  | [] => []
  | b :: inner =>
    b.sha256Check ++ cut (stops inner) b.outside
      (Stream.md5Check b.first.md5 ++ cut (stops inner) b.inside (checksOf stops inner))

/-- The checks that every `io.EOF` has passed. -/
def effective (blocks : List Block) : List Check := checksOf (fun inner n => decide (Reachable inner n)) blocks

/-- The checks that an `io.EOF` may have to pass. -/
def possible (blocks : List Block) : List Check := checksOf (fun _ n => decide (n ≤ 0)) blocks

def declared (blocks : List Block) : List Check := blocks.flatMap Block.declared

/-! ## What the calls build -/

section Shape

variable {S : Type} {f : Fields} {st : Stream S} {src : Stream S} {call : Call}

theorem merge_eq_ok {md5 sha256 : Bytes} (h : merge f src call md5 sha256 = .ok st) :
    ∃ f', f'.sha256 = f.sha256 ∧ f'.contentSHA256 = sha256 ∧
      ((f.size < 0 ∧ call.size ≥ 0 ∧ f'.size = call.size ∧ st = .hash f' (.wrap (.limit call.size src))) ∨
        (¬ (f.size < 0 ∧ call.size ≥ 0) ∧ f'.size = f.size ∧ st = .hash f' src)) := by
  unfold merge at h
  generalize (if f.actualSize ≤ 0 ∧ call.actualSize ≥ 0 then call.actualSize else f.actualSize) = actualSize at h
  split_ifs at h with h1 h2 h3 h4 h5
  · obtain rfl := Except.ok.inj h
    exact ⟨{ f with checksum := md5, contentSHA256 := sha256, size := call.size, actualSize }, rfl, rfl,
      Or.inl ⟨h5.1, h5.2, rfl, rfl⟩⟩
  · obtain rfl := Except.ok.inj h
    exact ⟨{ f with checksum := md5, contentSHA256 := sha256, actualSize }, rfl, rfl, Or.inr ⟨h5, rfl, rfl⟩⟩

/-- The digests of a call that makes a reader can be decoded. -/
theorem decoded_of_newReader (h : newReader src call = .ok st) :
    decodeString call.md5Hex = some call.md5 ∧ decodeString call.sha256Hex = some call.sha256 := by
  unfold newReader at h
  unfold Call.md5 Call.sha256
  split at h
  · cases h
  · next hmd5 =>
    split at h
    · cases h
    · next hsha => simp [hmd5, hsha]

/-- Merged calls change the reference values, and the first size that is known is a limit. -/
theorem foldlM_newReader {calls : List Call}
    (h : calls.foldlM newReader (Stream.hash f src) = .ok st) :
    ∃ f', f'.sha256 = f.sha256 ∧ f'.contentSHA256 = (calls.getLast?.map Call.sha256).getD f.contentSHA256 ∧
      st = .hash f' (match (if f.size ≥ 0 then none else (calls.map Call.size).find? fun n => decide (n ≥ 0)) with
        | some n => .wrap (.limit n src)
        | none => src) := by
  induction calls generalizing f src with
  | nil =>
    obtain rfl := Except.ok.inj h
    refine ⟨f, rfl, rfl, ?_⟩
    split_ifs <;> rfl
  | cons call rest ih =>
    rw [foldlM_cons] at h
    obtain ⟨r, hnew, h⟩ : ∃ r, newReader (Stream.hash f src) call = .ok r ∧ rest.foldlM newReader r = .ok st := by
      cases hnew : newReader (Stream.hash f src) call with
      | error e =>
        rw [hnew] at h
        cases h
      | ok r =>
        rw [hnew] at h
        exact ⟨r, rfl, h⟩
    have hlast : ((call :: rest).getLast?.map Call.sha256).getD f.contentSHA256 =
        (rest.getLast?.map Call.sha256).getD call.sha256 := by
      rw [List.getLast?_cons]
      cases rest.getLast? <;> rfl
    obtain ⟨hmd5, hsha⟩ := decoded_of_newReader hnew
    simp only [newReader, hmd5, hsha] at hnew
    obtain ⟨f₁, hf₁, hsha₁, hcases⟩ := merge_eq_ok hnew
    rw [hlast, ← hsha₁, ← hf₁]
    rcases hcases with ⟨hunknown, hsize, hf₁size, rfl⟩ | ⟨hkeep, hf₁size, rfl⟩
    · obtain ⟨f', hf', hsha', hst⟩ := ih h
      refine ⟨f', hf', hsha', ?_⟩
      rw [hst, if_pos (by omega), if_neg (by omega), map_cons, List.find?_cons_of_pos (by simpa using hsize)]
    · obtain ⟨f', hf', hsha', hst⟩ := ih h
      refine ⟨f', hf', hsha', ?_⟩
      rw [hst, hf₁size]
      by_cases hsize : f.size ≥ 0
      · rw [if_pos hsize, if_pos hsize]
      · rw [if_neg hsize, if_neg hsize, map_cons, List.find?_cons_of_neg (by simp; omega)]

def Block.over (b : Block) (f : Fields) (r : Stream S) : Stream S :=
  let inner := match b.inside with
    | some n => Stream.limit n r
    | none => r
  let etag := Stream.etag [] b.first.md5 0 inner
  .hash f (match b.outside with
    | some n => .wrap (.limit n etag)
    | none => etag)

/-- A reader that is hidden is the source, or a wrapped reader. -/
def IsHidden : Stream S → Prop
  | .source _ | .wrap _ => True
  | _ => False

variable {r : Stream S}

theorem newReader_of_hidden (hr : IsHidden r) (h : newReader r call = .ok st) :
    ∃ f, f.size = call.size ∧ f.contentSHA256 = call.sha256 ∧
      f.sha256 = (if call.sha256 = [] then none else some []) ∧
      st = .hash f (.etag [] call.md5 0 (if call.size ≥ 0 then .limit call.size r else r)) := by
  obtain ⟨hmd5, hsha⟩ := decoded_of_newReader h
  have hetag : newETagReader (if call.size ≥ 0 then .limit call.size r else r) call.md5 =
      .etag [] call.md5 0 (if call.size ≥ 0 then .limit call.size r else r) := by
    split_ifs
    · rfl
    · cases r <;> first | rfl | exact hr.elim
  simp only [newReader, hmd5, hsha] at h
  refine ⟨⟨0, call.size, call.actualSize, call.md5, call.sha256, if call.sha256 ≠ [] then some [] else none⟩, rfl,
    rfl, ite_not .., ?_⟩
  rw [← hetag]
  cases r with
  | source _ | wrap _ => exact (Except.ok.inj h).symm
  | limit _ _ | etag _ _ _ _ | hash _ _ => exact hr.elim

variable {b : Block}

theorem block_shape (hr : IsHidden r) {first : Stream S}
    (hfirst : newReader r b.first = .ok first) (h : b.merged.foldlM newReader first = .ok st) :
    ∃ f, f.contentSHA256 = b.lastSHA256 ∧ f.sha256 = (if b.first.sha256 = [] then none else some []) ∧
      st = b.over f r := by
  obtain ⟨f, hsize, hcontent, hsha, rfl⟩ := newReader_of_hidden hr hfirst
  obtain ⟨f', hsha', hcontent', rfl⟩ := foldlM_newReader h
  refine ⟨f', ?_, hsha'.trans hsha, ?_⟩
  · rw [hcontent', hcontent, Block.lastSHA256]
    cases b.merged.getLast? <;> rfl
  · unfold Block.over Block.outside Block.inside
    rw [hsize]
    by_cases hknown : b.first.size ≥ 0
    · rw [if_pos hknown, if_pos hknown, if_pos hknown]
    · rw [if_neg hknown, if_neg hknown, if_neg hknown]

/-- What the readers of the blocks are. -/
structure Shape (blocks : List Block) (st : Stream S) : Prop where
  fresh : st.Fresh
  reaches : ∀ n, st.Reaches n ↔ Reachable blocks n
  checks : st.checks = effective blocks
  possible : st.possible = Hash.possible blocks
  hidden : IsHidden (hidden st)

variable {blocks : List Block}

theorem Shape.hidden_eq (h : Shape blocks st) :
    (Hash.hidden st).Fresh ∧ (∀ n, (Hash.hidden st).Reaches n ↔ Reachable blocks n) ∧
      (Hash.hidden st).checks = effective blocks ∧ (Hash.hidden st).possible = Hash.possible blocks := by
  have hsame := And.intro h.fresh (And.intro h.reaches (And.intro h.checks h.possible))
  cases st <;> exact hsame

theorem over_shape {inner : List Block} (hfresh : r.Fresh) (hreach : ∀ n, r.Reaches n ↔ Reachable inner n)
    (hchecks : r.checks = effective inner) (hpossible : r.possible = Hash.possible inner)
    (hcontent : f.contentSHA256 = b.lastSHA256) (hsha : f.sha256 = (if b.first.sha256 = [] then none else some [])) :
    Shape (b :: inner) (b.over f r) := by
  have hown : Stream.sha256Check f.contentSHA256 f.sha256 = b.sha256Check := by
    unfold Stream.sha256Check Block.sha256Check
    split_ifs <;> simp_all
  have hreachable : ∀ n, Reachable (b :: inner) n ↔ (∀ size ∈ b.limit, n ≤ size) ∧ Reachable inner n :=
    fun n => forall_mem_cons
  have hdecide : ∀ n, decide (r.Reaches n) = decide (Reachable inner n) := fun n => by simp [hreach n]
  -- There is one limit at most.
  have hlimits : (∃ n, 0 ≤ n ∧ b.inside = some n ∧ b.outside = none) ∨
      (∃ n, 0 ≤ n ∧ b.inside = none ∧ b.outside = some n) ∨ b.inside = none ∧ b.outside = none := by
    unfold Block.inside Block.outside
    split_ifs with hsize
    · exact .inl ⟨_, hsize, rfl, rfl⟩
    · cases hout : (b.merged.map Call.size).find? fun size => decide (size ≥ 0) with
      | some n => exact .inr (.inl ⟨n, by simpa using List.find?_some hout, rfl, rfl⟩)
      | none => exact .inr (.inr ⟨rfl, rfl⟩)
  unfold Stream.checks at hchecks
  unfold Stream.possible at hpossible
  rcases hlimits with ⟨n, hn, hin, hout⟩ | ⟨n, hn, hin, hout⟩ | ⟨hin, hout⟩
  all_goals
    simp only [Block.over, hin, hout]
    refine ⟨by simp_all [Stream.Fresh], fun m => ?_, ?_, ?_, trivial⟩
    · simp [hreachable, Block.limit, hin, hout, Stream.Reaches, hreach m]
    · simp only [Stream.checks, Stream.checksWith, Stream.Reaches, effective, checksOf, hin, hout, cut, hown, hdecide,
        hchecks]
    · simp only [Stream.possible, Stream.checksWith, Hash.possible, checksOf, hin, hout, cut, hown, hpossible]

theorem nest_shape {s : S} (h : nest blocks s = .ok st) : Shape blocks st := by
  induction blocks generalizing st with
  | nil =>
    obtain rfl := Except.ok.inj h
    exact ⟨trivial, fun n => ⟨fun _ b hb => (by cases hb), fun _ => trivial⟩, rfl, rfl, trivial⟩
  | cons b inner ih =>
    unfold nest at h
    split at h
    · cases h
    · next r hr =>
      split at h
      · cases h
      · next first hfirst =>
        have hinner := ih hr
        obtain ⟨hfresh, hreach, hchecks, hpossible⟩ := hinner.hidden_eq
        obtain ⟨f, hcontent, hsha, rfl⟩ := block_shape hinner.hidden hfirst h
        exact over_shape hfresh hreach hchecks hpossible hcontent hsha

end Shape

/-! ## The result -/

/-- The reader verifies what was declared, whatever the source and the sizes of the reads are: `io.EOF` is
reached only if the bytes that were delivered have the declared digests; and if they have them, the read does
not end with the error of a check. -/
structure Verifies {S : Type} (h : Digests) (src : Source S) (st : Stream S) (digests : List Check) : Prop where
  eof : ∀ ks bytes, st.run h src ks = (bytes, some .eof) → ∀ c ∈ digests, c.Passes h bytes
  accepts : ∀ ks bytes e, st.run h src ks = (bytes, some e) → (∀ c ∈ digests, c.Passes h bytes) →
    e = .eof ∨ ∃ id, e = .source id

/-- No two different sums of one kind. -/
def Consistent (checks : List Check) : Prop :=
  (∀ v w, .md5 v ∈ checks → .md5 w ∈ checks → v = w) ∧ ∀ v w, .sha256 v ∈ checks → .sha256 w ∈ checks → v = w

/-- Declared digests that do not contradict each other are among the checks that are always made, and every
check that may be made is for one of them. If they contradict each other, so do the checks: no bytes pass. -/
def Covered (blocks : List Block) : Prop :=
  (Consistent (declared blocks) →
    (∀ c ∈ declared blocks, c ∈ effective blocks) ∧ ∀ c ∈ possible blocks, c ∈ declared blocks) ∧
  (¬ Consistent (declared blocks) → ¬ (Consistent (effective blocks) ∧ .sha256 [] ∉ effective blocks))

variable {c : Check}

theorem Call.mem_declared {call : Call} :
    c ∈ call.declared ↔ (c = .md5 call.md5 ∧ call.md5 ≠ []) ∨ (c = .sha256 call.sha256 ∧ call.sha256 ≠ []) := by
  unfold Call.declared
  split_ifs <;> simp_all

variable {blocks : List Block} {stops : List Block → Int → Bool}

theorem mem_checksOf (hc : c ∈ checksOf stops blocks) :
    ∃ b ∈ blocks, c ∈ b.sha256Check ∨ c ∈ Stream.md5Check b.first.md5 := by
  have hcut : ∀ {stops : Int → Bool} {size : Option Int} {inner : List Check},
      c ∈ cut stops size inner → c ∈ inner := by
    intro stops size inner h
    unfold cut at h
    split at h
    · split_ifs at h
      · cases h
      · exact h
    · exact h
  induction blocks with
  | nil => cases hc
  | cons b inner ih =>
    rcases mem_append.mp hc with hsha | hrest
    · exact ⟨b, mem_cons_self, Or.inl hsha⟩
    · rcases mem_append.mp (hcut hrest) with hmd5 | hinner
      · exact ⟨b, mem_cons_self, Or.inr hmd5⟩
      · obtain ⟨b', hb', h⟩ := ih (hcut hinner)
        exact ⟨b', mem_cons_of_mem b hb', h⟩

/-- A check is for a declared digest, or for an empty SHA-256 sum. -/
theorem declared_of_mem (hc : c ∈ checksOf stops blocks) :
    c ∈ declared blocks ∨ c = .sha256 [] := by
  obtain ⟨b, hb, hsha | hmd5⟩ := mem_checksOf hc
  · unfold Block.sha256Check at hsha
    split_ifs at hsha with hnil
    · cases hsha
    obtain rfl := mem_singleton.mp hsha
    by_cases hblank : b.lastSHA256 = []
    · exact Or.inr (by rw [hblank])
    refine Or.inl (mem_flatMap.mpr ⟨b, hb, ?_⟩)
    have hdeclared : Check.sha256 b.lastSHA256 ∈ (b.merged.getLast?.getD b.first).declared :=
      Call.mem_declared.mpr (Or.inr ⟨rfl, hblank⟩)
    cases hlast : b.merged.getLast? with
    | none =>
      rw [hlast] at hdeclared
      exact mem_append_left _ hdeclared
    | some call =>
      rw [hlast] at hdeclared
      exact mem_append_right _ (mem_flatMap.mpr ⟨call, mem_of_getLast? hlast, hdeclared⟩)
  · unfold Stream.md5Check at hmd5
    split_ifs at hmd5 with hnil
    · cases hmd5
    obtain rfl := mem_singleton.mp hmd5
    refine Or.inl (mem_flatMap.mpr ⟨b, hb, mem_append_left _ ?_⟩)
    exact Call.mem_declared.mpr (Or.inl ⟨rfl, hnil⟩)

theorem nil_not_mem_declared : .md5 [] ∉ declared blocks ∧ .sha256 [] ∉ declared blocks := by
  constructor <;>
  · simp only [declared, Block.declared, mem_flatMap, mem_append, Call.mem_declared]
    grind

variable {checks : List Check}

/-- Sums of checks that do not contradict each other, such that no sum is empty. -/
theorem exists_sums (hcons : Consistent checks) (hne : .md5 [] ∉ checks ∧ .sha256 [] ∉ checks) :
    ∃ x y, x ≠ [] ∧ y ≠ [] ∧ (∀ v, .md5 v ∈ checks → x = v) ∧ ∀ v, .sha256 v ∈ checks → y = v := by
  have hpick : ∀ P : Bytes → Prop, (∀ v w, P v → P w → v = w) → ¬ P [] → ∃ x, x ≠ [] ∧ ∀ v, P v → x = v := by
    intro P huniq hnil
    by_cases hex : ∃ v, P v
    · obtain ⟨v, hv⟩ := hex
      exact ⟨v, fun h => hnil (h ▸ hv), fun w hw => huniq v w hv hw⟩
    · exact ⟨[0], by simp, fun v hv => absurd ⟨v, hv⟩ hex⟩
  obtain ⟨x, hx, hmd5⟩ := hpick _ hcons.1 hne.1
  obtain ⟨y, hy, hsha⟩ := hpick _ hcons.2 hne.2
  exact ⟨x, y, hx, hy, hmd5, hsha⟩

theorem passes_constant {x y : Bytes} (hx : x ≠ []) (hy : y ≠ []) (hmd5 : ∀ v, .md5 v ∈ checks → x = v)
    (hsha : ∀ v, .sha256 v ∈ checks → y = v) (bytes : Bytes) :
    ∀ c ∈ checks, c.Passes (Stream.constant x y hx hy) bytes := by
  intro c hc
  cases c with
  | md5 v => exact hmd5 v hc
  | sha256 v => exact hsha v hc

theorem consistent_of_passes {h : Digests} {bytes : Bytes} (hpass : ∀ c ∈ checks, c.Passes h bytes) :
    Consistent checks :=
  ⟨fun _ _ hv hw => (hpass _ hv).symm.trans (hpass _ hw), fun _ _ hv hw => (hpass _ hv).symm.trans (hpass _ hw)⟩

theorem Covered.verifies (hcov : Covered blocks) {S : Type} {s : S} {st : Stream S}
    (hst : nest blocks s = .ok st) (h : Digests) (src : Source S) : Verifies h src st (declared blocks) := by
  have hshape := nest_shape hst
  have hspec : ∀ ks bytes e, st.run h src ks = (bytes, some e) →
      (e = .eof → ∀ c ∈ effective blocks, c.Passes h bytes) ∧
        (e.IsDigest → ∃ c ∈ possible blocks, ¬ c.Passes h bytes) := by
    intro ks bytes e hrun
    rw [← Stream.after_nil st] at hrun
    have hzero : st.Reaches ([] : Bytes).length := hshape.fresh.reaches_zero
    have hspec := Stream.run_spec hshape.fresh hzero st.origin ks hrun
    rwa [hshape.checks, hshape.possible] at hspec
  constructor
  · intro ks bytes hrun
    have hpass := (hspec ks bytes .eof hrun).1 rfl
    by_cases hcons : Consistent (declared blocks)
    · exact fun c hc => hpass c ((hcov.1 hcons).1 c hc)
    · refine absurd ⟨consistent_of_passes hpass, fun hblank => ?_⟩ (hcov.2 hcons)
      exact h.sha256_ne bytes (hpass _ hblank)
  · intro ks bytes e hrun hpass
    apply not_digest
    intro hd
    obtain ⟨c, hc, hfail⟩ := (hspec ks bytes e hrun).2 hd
    exact hfail (hpass c ((hcov.1 (consistent_of_passes hpass)).2 c hc))

theorem covered_of_verifies {st : Stream Unit} (hst : nest blocks () = .ok st)
    (hver : ∀ h src, Verifies h src st (declared blocks)) : Covered blocks := by
  have hshape := nest_shape hst
  have hsub : ∀ c ∈ effective blocks, c ∈ possible blocks := by
    rw [← hshape.checks, ← hshape.possible]
    exact hshape.fresh.checks_subset
  -- Sums that pass the checks that are always made pass all declared digests.
  have heof : ∀ {x y : Bytes} (hx : x ≠ []) (hy : y ≠ []), (∀ v, .md5 v ∈ effective blocks → x = v) →
      (∀ v, .sha256 v ∈ effective blocks → y = v) →
      ∀ c ∈ declared blocks, c.Passes (Stream.constant x y hx hy) [] := by
    intro x y hx hy hmd5 hsha c hc
    have hpass := passes_constant hx hy hmd5 hsha []
    rw [← hshape.checks] at hpass
    obtain ⟨src, ks, bytes, hrun⟩ := Stream.exists_eof hshape.fresh (Stream.blind_constant hx hy) hpass
    exact Stream.blind_constant hx hy c bytes [] ((hver _ src).eof ks bytes hrun c hc)
  refine ⟨fun hcons => ?_, fun hcontra => ?_⟩
  · obtain ⟨x, y, hx, hy, hmd5, hsha⟩ := exists_sums hcons nil_not_mem_declared
    have hpossible : ∀ c ∈ possible blocks, c ∈ declared blocks := by
      intro c hc
      by_contra hnot
      obtain rfl := (declared_of_mem hc).resolve_left hnot
      have hfail : ¬ ∀ c ∈ st.possible, c.Passes (Stream.constant x y hx hy) [] := by
        intro hpass
        rw [hshape.possible] at hpass
        exact hy (hpass _ hc)
      obtain ⟨src, ks, bytes, e, hrun, hd⟩ := Stream.exists_digest (Stream.blind_constant hx hy) hfail
      rcases (hver _ src).accepts ks bytes e hrun (passes_constant hx hy hmd5 hsha bytes) with rfl | ⟨id, rfl⟩
      · exact hd
      · exact hd
    refine ⟨fun c hc => ?_, hpossible⟩
    have hdeclared : ∀ c ∈ effective blocks, c ∈ declared blocks := fun c hc => hpossible c (hsub c hc)
    by_contra hnot
    -- Another sum than the declared one is not noticed.
    cases c with
    | md5 v =>
      have hpass := heof (x := v ++ [0]) (by simp) hy
        (fun w hw => absurd (hcons.1 w v (hdeclared _ hw) hc ▸ hw) hnot) (fun w hw => hsha w (hdeclared _ hw)) _ hc
      simp [Check.Passes, Stream.constant] at hpass
    | sha256 v =>
      have hpass := heof (y := v ++ [0]) hx (by simp) (fun w hw => hmd5 w (hdeclared _ hw))
        (fun w hw => absurd (hcons.2 w v (hdeclared _ hw) hc ▸ hw) hnot) _ hc
      simp [Check.Passes, Stream.constant] at hpass
  · rintro ⟨hcons, hblank⟩
    have hne : .md5 [] ∉ effective blocks := fun hv =>
      (declared_of_mem hv).elim nil_not_mem_declared.1 fun h => (by cases h)
    obtain ⟨x, y, hx, hy, hmd5, hsha⟩ := exists_sums hcons ⟨hne, hblank⟩
    exact hcontra (consistent_of_passes (heof hx hy hmd5 hsha))

/-- Calls of `NewReader` that all succeed verify what they declare, for all digests, sources and reads, exactly
if the declared digests are covered. -/
theorem newReader_verifies_iff {blocks : List Block} (hok : ∃ st, nest blocks () = .ok st) :
    (∀ (S : Type) (s : S) (st : Stream S) (h : Digests) (src : Source S), nest blocks s = .ok st →
      Verifies h src st (declared blocks)) ↔ Covered blocks := by
  constructor
  · intro hver
    obtain ⟨st, hst⟩ := hok
    exact covered_of_verifies hst fun h src => hver Unit () st h src hst
  · intro hcov S s st h src hst
    exact hcov.verifies hst h src

section Examples

/-- One call that declares a size and the MD5 sum "61". -/
def declaredOnce : List Block := [⟨⟨1, [54, 49], [], 1⟩, []⟩]

/-- The MD5 sum is declared by the second call. -/
def declaredLate : List Block := [⟨⟨-1, [], [], -1⟩, [⟨-1, [54, 49], [], -1⟩]⟩]

/-- The MD5 sum is declared by the first call, the size by the second. -/
def limitedLate : List Block := [⟨⟨-1, [54, 49], [], -1⟩, [⟨1, [54, 49], [], 1⟩]⟩]

/-- The SHA-256 sum is declared by the first call only. -/
def declaredEarly : List Block := [⟨⟨-1, [], [54, 49], -1⟩, [⟨-1, [], [], -1⟩]⟩]

theorem sum_ne : ([98] : Bytes) ≠ [] := by decide

theorem sum_ne' : ([97] : Bytes) ≠ [] := by decide

/-- A single call verifies what it declares. -/
theorem newReader_verifies_once : (∃ st, nest declaredOnce () = .ok st) ∧
      ∀ (S : Type) (s : S) (st : Stream S) (h : Digests) (src : Source S), nest declaredOnce s = .ok st →
        Verifies h src st [.md5 [97]] := by
  have hdeclared : declared declaredOnce = [.md5 [97]] := by decide
  have hcons : Consistent (declared declaredOnce) := by
    rw [hdeclared]
    simp [Consistent]
  refine ⟨⟨_, rfl⟩, (newReader_verifies_iff ⟨_, rfl⟩).mpr ⟨fun _ => ?_, fun hcontra => absurd hcons hcontra⟩⟩
  exact ⟨fun c hc => hc, fun c hc => hc⟩

/-- Content with another MD5 sum than "61" ends with `io.EOF` if the sum is declared by a merged call, or if the
size is. Content with the SHA-256 sum "61" is refused if the sum is declared by the first call only. -/
theorem newReader_unverified : (∃ st, nest declaredLate () = .ok st ∧ declared declaredLate = [.md5 [97]] ∧
        st.run (Stream.constant [98] [98] sum_ne sum_ne) Stream.ended [1] = ([], some .eof)) ∧
      (∃ st, nest limitedLate () = .ok st ∧ .md5 [97] ∈ declared limitedLate ∧
        st.run (Stream.constant [98] [98] sum_ne sum_ne) Stream.endless [1, 1] = ([0], some .eof)) ∧
      ∃ st, nest declaredEarly () = .ok st ∧ declared declaredEarly = [.sha256 [97]] ∧
        st.run (Stream.constant [98] [97] sum_ne sum_ne') Stream.ended [1] =
          ([], some (.sha256Mismatch [] [54, 49])) := by
  refine ⟨⟨_, rfl, by decide, by decide⟩, ⟨_, rfl, by decide, by decide⟩, ⟨_, rfl, by decide, by decide⟩⟩

end Examples

end Otterio.Hash
