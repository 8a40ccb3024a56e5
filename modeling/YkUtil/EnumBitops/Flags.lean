import YkUtil.Colorize.Color
import YkUtil.Lib.Split
import Mathlib.Data.List.Sort

/-!
Enumerations whose values are flags. `each_bit` takes a value apart into its flags,
`|` puts flags together, and `parse_flags` reads names of flags with a delimiter
between them. The enumeration is a bit vector, and what it specializes of
`bitops_enabled` a parameter.
-/

namespace YkUtil.EnumBitops

open YkUtil.Lib

/-- What `bitops_enabled` says of the bits of an enumeration over `w` bits. -/
structure BitopsEnabled (w : Nat) where
  minBit : Option Nat
  maxBit : Nat
  max_lt : maxBit < w
  min_le : ∀ min ∈ minBit, min ≤ maxBit

variable {w : Nat}

/-- The first bit that `each_bit` looks at. -/
def BitopsEnabled.firstBit (e : BitopsEnabled w) : Nat := e.minBit.getD 0

def contains (a b : BitVec w) : Bool := a &&& b == b

def containsAnyBit (a b : BitVec w) : Bool := a &&& b != 0

/-- Asserts that `b` has a single bit. -/
def containsSingleBit (a b : BitVec w) : Bool := containsAnyBit a b

/-- The flag of bit `i`. -/
def bit (w i : Nat) : BitVec w := 1#w <<< i

def eachBit (e : BitopsEnabled w) (flags : BitVec w) : List (BitVec w) :=
  ((List.range' e.firstBit (e.maxBit + 1 - e.firstBit)).filter fun i =>
    flags >>> i &&& 1#w != 0).map (bit w)

/-- Flags put together with `|=`. -/
def combine (flags : List (BitVec w)) : BitVec w := flags.foldl (· ||| ·) 0

/-- The loop of `parse_flags`, which returns on a part that is not parsed. -/
def parseParts (parse : List Char → BitVec w) : List (List Char) → BitVec w → BitVec w
  | [], res => res
  | part :: parts, res => if parse part = 0 then 0 else parseParts parse parts (res ||| parse part)

def parseFlags (parse : List Char → BitVec w) (str delim : List Char) : BitVec w :=
  parseParts parse (splitView delim str) 0

/-- A bit that `each_bit` looks at. -/
def BitopsEnabled.Covers (e : BitopsEnabled w) (i : Nat) : Prop := e.firstBit ≤ i ∧ i ≤ e.maxBit

/-- All bits are ones that `each_bit` looks at. -/
def BitopsEnabled.Within (e : BitopsEnabled w) (flags : BitVec w) : Prop :=
  ∀ i, flags.getLsbD i = true → e.Covers i

/-- Single flags in the order of their bits. -/
def BitopsEnabled.Single (e : BitopsEnabled w) (flags : List (BitVec w)) : Prop :=
  ∃ bits : List Nat, bits.Pairwise (· < ·) ∧ (∀ i ∈ bits, e.Covers i) ∧ flags = bits.map (bit w)

section Bits

variable {e : BitopsEnabled w} {flags : BitVec w} {i j : Nat}

theorem BitopsEnabled.Covers.lt (h : e.Covers i) : i < w := Nat.lt_of_le_of_lt h.2 e.max_lt

theorem bit_getLsbD (i j : Nat) : (bit w i).getLsbD j = decide (j < w ∧ j = i) := by
  rw [bit, BitVec.getLsbD_shiftLeft, BitVec.getLsbD_one]
  by_cases hj : j < w
  · by_cases heq : j = i
    · subst heq
      have hw : 0 < w := by omega
      simp [hj, hw]
    · by_cases hlt : j < i
      · simp [hlt, heq]
      · have hne : j - i ≠ 0 := by omega
        simp [heq, hne]
  · simp [hj]

theorem bit_injective (hi : i < w) (h : bit w i = bit w j) : i = j := by
  have hbit := congrArg (fun flags => flags.getLsbD i) h
  simp only [bit_getLsbD, hi, true_and, decide_true] at hbit
  exact of_decide_eq_true hbit.symm

theorem bit_ne_zero (hi : i < w) : bit w i ≠ 0 := by
  intro h
  have hbit := congrArg (fun flags => flags.getLsbD i) h
  simp only [bit_getLsbD, hi, true_and, decide_true] at hbit
  simp at hbit

theorem shift_and_one (flags : BitVec w) (i : Nat) :
    (flags >>> i &&& 1#w != 0) = flags.getLsbD i := by
  by_cases hbit : flags.getLsbD i = true
  · rw [hbit, bne_iff_ne]
    intro hzero
    have hone := congrArg (fun flags => flags.getLsbD 0) hzero
    have hw : 0 < w := Nat.lt_of_le_of_lt (Nat.zero_le i) (BitVec.lt_of_getLsbD hbit)
    simp [hbit, hw] at hone
  · rw [Bool.not_eq_true] at hbit
    rw [hbit, bne_eq_false_iff_eq]
    apply BitVec.eq_of_getLsbD_eq
    intro j hj
    rw [BitVec.getLsbD_and, BitVec.getLsbD_ushiftRight, BitVec.getLsbD_one]
    by_cases hzero : j = 0
    · subst hzero
      simp [hbit]
    · simp [hzero]

/-- The bits of the flags that `each_bit` returns. -/
def bitsOf (e : BitopsEnabled w) (flags : BitVec w) : List Nat :=
  (List.range' e.firstBit (e.maxBit + 1 - e.firstBit)).filter fun i => flags.getLsbD i

theorem eachBit_eq (e : BitopsEnabled w) (flags : BitVec w) :
    eachBit e flags = (bitsOf e flags).map (bit w) := by
  simp only [eachBit, bitsOf, shift_and_one]

theorem firstBit_le (e : BitopsEnabled w) : e.firstBit ≤ e.maxBit := by
  rw [BitopsEnabled.firstBit]
  cases hmin : e.minBit with
  | none => exact Nat.zero_le _
  | some min => exact e.min_le min hmin

theorem mem_bitsOf : i ∈ bitsOf e flags ↔ e.Covers i ∧ flags.getLsbD i = true := by
  have hle := firstBit_le e
  rw [bitsOf, List.mem_filter, List.mem_range'_1, BitopsEnabled.Covers]
  apply and_congr_left
  omega

theorem bitsOf_increasing (e : BitopsEnabled w) (flags : BitVec w) :
    (bitsOf e flags).Pairwise (· < ·) :=
  (List.pairwise_lt_range' _).filter _

theorem foldl_or_getLsbD (flags : List (BitVec w)) (start : BitVec w) (i : Nat) :
    (flags.foldl (· ||| ·) start).getLsbD i =
      (start.getLsbD i || flags.any fun flag => flag.getLsbD i) := by
  induction flags generalizing start with
  | nil => simp
  | cons flag flags ih => simp [ih, Bool.or_assoc]

theorem combine_getLsbD (flags : List (BitVec w)) (i : Nat) :
    (combine flags).getLsbD i = flags.any fun flag => flag.getLsbD i := by
  rw [combine, foldl_or_getLsbD]
  simp

/-- The bits of flags put together. -/
theorem combine_bits_getLsbD (bits : List Nat) (hi : i < w) :
    (combine (bits.map (bit w))).getLsbD i = decide (i ∈ bits) := by
  rw [combine_getLsbD, List.any_map, Bool.eq_iff_iff, List.any_eq_true, decide_eq_true_iff]
  simp only [Function.comp_apply, bit_getLsbD, hi, true_and, decide_eq_true_iff, exists_eq_right']

theorem mem_bitsOf_combine (e : BitopsEnabled w) {bits : List Nat}
    (hcovers : ∀ i ∈ bits, e.Covers i) : i ∈ bitsOf e (combine (bits.map (bit w))) ↔ i ∈ bits := by
  rw [mem_bitsOf]
  constructor
  · rintro ⟨hi, hbit⟩
    rw [combine_bits_getLsbD bits hi.lt] at hbit
    exact of_decide_eq_true hbit
  · intro hmem
    have hi := hcovers i hmem
    refine ⟨hi, ?_⟩
    rw [combine_bits_getLsbD bits hi.lt]
    exact decide_eq_true hmem

/-- Lists of numbers that go up and have the same elements are the same. -/
theorem eq_of_increasing {bits bits' : List Nat} (h : bits.Pairwise (· < ·))
    (h' : bits'.Pairwise (· < ·)) (hmem : ∀ i, i ∈ bits ↔ i ∈ bits') : bits = bits' := by
  have hperm := (List.perm_ext_iff_of_nodup (h.imp Nat.ne_of_lt) (h'.imp Nat.ne_of_lt)).mpr hmem
  refine List.Perm.eq_of_pairwise (fun a b _ _ hab hba => ?_) h h' hperm
  omega

theorem single_eachBit (e : BitopsEnabled w) (flags : BitVec w) : e.Single (eachBit e flags) :=
  ⟨bitsOf e flags, bitsOf_increasing e flags, fun _ hi => (mem_bitsOf.mp hi).1, eachBit_eq e flags⟩

theorem combine_eachBit_iff : combine (eachBit e flags) = flags ↔ e.Within flags := by
  rw [eachBit_eq]
  constructor
  · intro heq i hbit
    have hi := BitVec.lt_of_getLsbD hbit
    rw [← heq, combine_bits_getLsbD _ hi] at hbit
    exact (mem_bitsOf.mp (of_decide_eq_true hbit)).1
  · intro hwithin
    apply BitVec.eq_of_getLsbD_eq
    intro i hi
    rw [combine_bits_getLsbD _ hi, Bool.eq_iff_iff, decide_eq_true_iff, mem_bitsOf]
    exact ⟨And.right, fun hbit => ⟨hwithin i hbit, hbit⟩⟩

theorem contains_iff {a b : BitVec w} :
    contains a b = true ↔ ∀ i, b.getLsbD i = true → a.getLsbD i = true := by
  rw [contains, beq_iff_eq]
  constructor
  · intro heq i hbit
    rw [← heq, BitVec.getLsbD_and, Bool.and_eq_true] at hbit
    exact hbit.1
  · intro hall
    apply BitVec.eq_of_getLsbD_eq
    intro i _
    rw [BitVec.getLsbD_and, Bool.and_eq_right_iff_imp]
    exact hall i

theorem containsAnyBit_iff {a b : BitVec w} :
    containsAnyBit a b = true ↔ ∃ i, a.getLsbD i = true ∧ b.getLsbD i = true := by
  rw [containsAnyBit, bne_iff_ne]
  constructor
  · intro hne
    by_contra hnone
    apply hne
    apply BitVec.eq_of_getLsbD_eq
    intro i _
    have hzero : (0 : BitVec w).getLsbD i = false := BitVec.getLsbD_zero
    rw [BitVec.getLsbD_and, hzero, Bool.and_eq_false_imp]
    intro ha
    rw [Bool.eq_false_iff]
    exact fun hb => hnone ⟨i, ha, hb⟩
  · rintro ⟨i, ha, hb⟩ hzero
    have hbit := congrArg (fun flags => flags.getLsbD i) hzero
    simp [ha, hb] at hbit

/-- On a single flag the three tests agree. -/
theorem containsSingleBit_eq (a : BitVec w) (hi : i < w) :
    containsSingleBit a (bit w i) = contains a (bit w i) := by
  rw [Bool.eq_iff_iff, containsSingleBit, containsAnyBit_iff, contains_iff]
  simp only [bit_getLsbD, decide_eq_true_iff]
  constructor
  · rintro ⟨j, ha, -, rfl⟩ k ⟨-, rfl⟩
    exact ha
  · intro hall
    exact ⟨i, hall i ⟨hi, rfl⟩, hi, rfl⟩

theorem sublist_of_filter {p q : Nat → Bool} (l : List Nat) (h : ∀ i, p i = true → q i = true) :
    (l.filter p).Sublist (l.filter q) := by
  have hfilter : (l.filter q).filter p = l.filter p := by
    rw [List.filter_filter]
    apply List.filter_congr
    intro i _
    cases hp : p i
    · rfl
    · rw [h i hp]
      rfl
  rw [← hfilter]
  exact List.filter_sublist

theorem contains_iff_sublist {a b : BitVec w} (hwithin : e.Within b) :
    contains a b = true ↔ (eachBit e b).Sublist (eachBit e a) := by
  rw [contains_iff]
  constructor
  · intro hall
    rw [eachBit_eq, eachBit_eq]
    exact (sublist_of_filter _ hall).map _
  · intro hsub i hbit
    have hi := hwithin i hbit
    have hmem : bit w i ∈ eachBit e a := by
      apply hsub.subset
      rw [eachBit_eq]
      exact List.mem_map_of_mem (mem_bitsOf.mpr ⟨hi, hbit⟩)
    rw [eachBit_eq, List.mem_map] at hmem
    obtain ⟨j, hj, heq⟩ := hmem
    have hj' := mem_bitsOf.mp hj
    obtain rfl := bit_injective hj'.1.lt heq
    exact hj'.2

theorem contains_iff_each {a b : BitVec w} (hwithin : e.Within b) :
    contains a b = true ↔ ∀ flag ∈ eachBit e b, containsSingleBit a flag = true := by
  rw [contains_iff]
  constructor
  · intro hall flag hmem
    rw [eachBit_eq, List.mem_map] at hmem
    obtain ⟨i, hi, rfl⟩ := hmem
    obtain ⟨hcovers, hbit⟩ := mem_bitsOf.mp hi
    rw [containsSingleBit_eq a hcovers.lt, contains_iff]
    intro j hj
    rw [bit_getLsbD, decide_eq_true_iff] at hj
    rw [hj.2]
    exact hall i hbit
  · intro hall i hbit
    have hcovers := hwithin i hbit
    have hmem : bit w i ∈ eachBit e b := by
      rw [eachBit_eq]
      exact List.mem_map_of_mem (mem_bitsOf.mpr ⟨hcovers, hbit⟩)
    have htest := hall _ hmem
    rw [containsSingleBit_eq a hcovers.lt, contains_iff] at htest
    exact htest i (by rw [bit_getLsbD]; exact decide_eq_true ⟨hcovers.lt, rfl⟩)

/-- For every enumeration: `each_bit` lists single flags in the order of their bits, and
putting them together gives the value back exactly if it has no bit that `each_bit` does
not look at. Conversely every list of single flags in this order is what `each_bit` makes
of its combination. A value contains such another one if and only if the flags of the
other are a sublist of its own, and if and only if each of them passes the test for a
single bit. -/
theorem eachBit_combine (e : BitopsEnabled w) :
    (∀ flags, e.Single (eachBit e flags) ∧
      (combine (eachBit e flags) = flags ↔ e.Within flags)) ∧
    (∀ flags, e.Single flags → eachBit e (combine flags) = flags) ∧
    ∀ a b, e.Within b → (contains a b = true ↔ (eachBit e b).Sublist (eachBit e a)) ∧
      (contains a b = true ↔ ∀ flag ∈ eachBit e b, containsSingleBit a flag = true) := by
  refine ⟨fun flags => ⟨single_eachBit e flags, combine_eachBit_iff⟩, ?_,
    fun a b hwithin => ⟨contains_iff_sublist hwithin, contains_iff_each hwithin⟩⟩
  rintro _ ⟨bits, hincreasing, hcovers, rfl⟩
  rw [eachBit_eq, eq_of_increasing (bitsOf_increasing e _) hincreasing fun i =>
    mem_bitsOf_combine e hcovers]

/-- An enumeration whose flags start at bit two. -/
theorem eachBit_combine_from_two :
    eachBit ⟨some 2, 4, by decide, by simp⟩ (combine [4#8, 16#8]) = [4, 16] := by
  apply (eachBit_combine ⟨some 2, 4, by decide, by simp⟩).2.1
  refine ⟨[2, 4], by decide, fun i hi => ?_, by decide⟩
  rcases List.mem_pair.mp hi with rfl | rfl
  · exact ⟨Nat.le_refl 2, by decide⟩
  · exact ⟨by decide, Nat.le_refl 4⟩

end Bits

section Parse

variable {parse : List Char → BitVec w} {delim : List Char} {texts : List (List Char)}

theorem parseParts_of_all (h : ∀ text ∈ texts, parse text ≠ 0) (res : BitVec w) :
    parseParts parse texts res = (texts.map parse).foldl (· ||| ·) res := by
  induction texts generalizing res with
  | nil => rfl
  | cons text texts ih =>
      rw [parseParts, if_neg (h text List.mem_cons_self), ih fun t ht =>
        h t (List.mem_cons_of_mem _ ht)]
      rfl

theorem parseParts_of_not_all (h : ∃ text ∈ texts, parse text = 0) (res : BitVec w) :
    parseParts parse texts res = 0 := by
  induction texts generalizing res with
  | nil => simp at h
  | cons text texts ih =>
      rw [parseParts]
      by_cases hzero : parse text = 0
      · rw [if_pos hzero]
      · rw [if_neg hzero]
        apply ih
        obtain ⟨t, ht, hparse⟩ := h
        rcases List.mem_cons.mp ht with rfl | ht
        · exact absurd hparse hzero
        · exact ⟨t, ht, hparse⟩

theorem parseFlags_joined (hsep : ∀ text ∈ texts, Separable delim text)
    (h : ∀ text ∈ texts, parse text ≠ 0) :
    parseFlags parse (delim.intercalate texts) delim = combine (texts.map parse) := by
  rw [parseFlags, splitView_joined hsep, parseParts_of_all h]
  rfl

/-- The names of flags: each is parsed as its flag, and can stand before the delimiter. -/
structure Names (e : BitopsEnabled w) (parse : List Char → BitVec w)
    (name : BitVec w → List Char) (delim : List Char) : Prop where
  parsed : ∀ i, e.Covers i → parse (name (bit w i)) = bit w i
  separable : ∀ i, e.Covers i → Separable delim (name (bit w i))

/-- For every enumeration whose flags have names that the delimiter keeps apart, and every
value made of flag bits only: if texts are the names of its flags, in any order and however
often each of them, then `parse_flags` reads the value from these texts with the delimiter
between them; and if one more text that is not parsed, and that the delimiter keeps apart
too, stands anywhere among them, it reads nothing. -/
theorem parseFlags_names {e : BitopsEnabled w} {name : BitVec w → List Char}
    (hnames : Names e parse name delim) {flags : BitVec w} (hwithin : e.Within flags)
    (htexts : ∀ text, text ∈ texts ↔ text ∈ (eachBit e flags).map name) :
    parseFlags parse (delim.intercalate texts) delim = flags ∧
    ∀ before after unknown, texts = before ++ after → Separable delim unknown →
      parse unknown = 0 →
        parseFlags parse (delim.intercalate (before ++ unknown :: after)) delim = 0 := by
  have hbits {text : List Char} : text ∈ texts ↔ ∃ i ∈ bitsOf e flags, name (bit w i) = text := by
    rw [htexts, eachBit_eq, List.map_map, List.mem_map]
    rfl
  have hsep : ∀ text ∈ texts, Separable delim text := by
    intro text hmem
    obtain ⟨i, hi, rfl⟩ := hbits.mp hmem
    exact hnames.separable i (mem_bitsOf.mp hi).1
  constructor
  · rw [parseFlags_joined hsep]
    · apply BitVec.eq_of_getLsbD_eq
      intro j hj
      rw [combine_getLsbD, List.any_map, Bool.eq_iff_iff, List.any_eq_true]
      constructor
      · rintro ⟨text, hmem, hbit⟩
        obtain ⟨i, hi, rfl⟩ := hbits.mp hmem
        obtain ⟨hcovers, hset⟩ := mem_bitsOf.mp hi
        rw [Function.comp_apply, hnames.parsed i hcovers, bit_getLsbD, decide_eq_true_iff] at hbit
        rw [hbit.2]
        exact hset
      · intro hset
        have hcovers := hwithin j hset
        refine ⟨name (bit w j), hbits.mpr ⟨j, mem_bitsOf.mpr ⟨hcovers, hset⟩, rfl⟩, ?_⟩
        rw [Function.comp_apply, hnames.parsed j hcovers, bit_getLsbD]
        exact decide_eq_true ⟨hj, rfl⟩
    · intro text hmem
      obtain ⟨i, hi, rfl⟩ := hbits.mp hmem
      have hcovers := (mem_bitsOf.mp hi).1
      rw [hnames.parsed i hcovers]
      exact bit_ne_zero hcovers.lt
  · rintro before after unknown rfl hunknown hzero
    have hall : ∀ text ∈ before ++ unknown :: after, Separable delim text := by
      intro text hmem
      rcases List.mem_append.mp hmem with hmem | hmem
      · exact hsep text (List.mem_append_left _ hmem)
      · rcases List.mem_cons.mp hmem with rfl | hmem
        · exact hunknown
        · exact hsep text (List.mem_append_right _ hmem)
    rw [parseFlags, splitView_joined hall]
    exact parseParts_of_not_all ⟨unknown, by simp, hzero⟩ 0

/-- Two flags of three, one of them twice. -/
theorem parseFlags_names_repeated :
    let parse (text : List Char) : BitVec 8 := if text = "foo".toList then 1
      else if text = "bar".toList then 2 else if text = "baz".toList then 4 else 0
    parseFlags parse "baz|foo|baz".toList "|".toList = 5 ∧
      parseFlags parse "baz|yay|foo|baz".toList "|".toList = 0 := by
  let parse (text : List Char) : BitVec 8 := if text = "foo".toList then 1
    else if text = "bar".toList then 2 else if text = "baz".toList then 4 else 0
  let name (flag : BitVec 8) : List Char := if flag = 1 then "foo".toList
    else if flag = 2 then "bar".toList else "baz".toList
  let e : BitopsEnabled 8 := ⟨none, 2, by decide, by simp⟩
  have hcases {i : Nat} (hi : e.Covers i) : i = 0 ∨ i = 1 ∨ i = 2 := by
    have hle : i ≤ 2 := hi.2
    omega
  have hnames : Names e parse name "|".toList := by
    constructor
    · intro i hi
      rcases hcases hi with rfl | rfl | rfl <;> decide
    · intro i hi
      rcases hcases hi with rfl | rfl | rfl <;> exact ⟨by decide, by decide⟩
  have hwithin : e.Within 5 := by
    intro i hbit
    have hi := BitVec.lt_of_getLsbD hbit
    refine ⟨Nat.zero_le i, ?_⟩
    by_contra hlarge
    have hnone : ∀ j < 8, 2 < j → (5 : BitVec 8).getLsbD j = false := by decide
    rw [hnone i hi (by simpa using hlarge)] at hbit
    cases hbit
  have htexts (text : List Char) : text ∈ ["baz".toList, "foo".toList, "baz".toList] ↔
      text ∈ (eachBit e 5).map name := by
    have hflags : (eachBit e 5).map name = ["foo".toList, "baz".toList] := by decide
    rw [hflags]
    simp only [List.mem_cons, List.not_mem_nil, or_false]
    constructor
    · rintro (h | h | h)
      · exact .inr h
      · exact .inl h
      · exact .inr h
    · rintro (h | h)
      · exact .inr (.inl h)
      · exact .inl h
  have h := parseFlags_names hnames hwithin htexts
  exact ⟨h.1, h.2 ["baz".toList] ["foo".toList, "baz".toList] "yay".toList rfl
    ⟨by decide, by decide⟩ (by decide)⟩

end Parse

/-! The emphases of a coloured text are such an enumeration. -/

/-- What `bitops_enabled` says of `emphasis`. -/
def emphasisBits : BitopsEnabled 8 := ⟨none, 7, by decide, by simp⟩

theorem eachBit_emphasis (flags : BitVec 8) :
    eachBit emphasisBits flags = (Colorize.eachBit flags).map Colorize.Emphasis.flag := by
  have hall : List.range' emphasisBits.firstBit (emphasisBits.maxBit + 1 - emphasisBits.firstBit) =
      Colorize.Emphasis.all.map Colorize.Emphasis.bit := by decide
  rw [eachBit_eq, bitsOf, hall, List.filter_map, List.map_map, Colorize.eachBit]
  rfl

end YkUtil.EnumBitops
