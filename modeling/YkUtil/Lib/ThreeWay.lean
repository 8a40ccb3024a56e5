import Mathlib.Order.Defs.Unbundled

/-!
Comparisons with four verdicts, the fourth being that two values have no order
at all. Two ways of building one comparison from two are studied: asking the
second about the pairs that the first finds equivalent, and asking it about all
the pairs that the first does not decide.
-/

namespace YkUtil.Lib.ThreeWay

universe u v

variable {α β : Type u}

inductive Verdict where
  | less
  | equivalent
  | greater
  | unordered
  deriving DecidableEq, Repr

def Verdict.swap : Verdict → Verdict
  | .less => .greater
  | .equivalent => .equivalent
  | .greater => .less
  | .unordered => .unordered

@[simp] theorem Verdict.swap_eq_less {v : Verdict} : v.swap = .less ↔ v = .greater := by
  cases v <;> simp [Verdict.swap]

@[simp] theorem Verdict.swap_eq_greater {v : Verdict} : v.swap = .greater ↔ v = .less := by
  cases v <;> simp [Verdict.swap]

@[simp] theorem Verdict.swap_eq_equivalent {v : Verdict} :
    v.swap = .equivalent ↔ v = .equivalent := by
  cases v <;> simp [Verdict.swap]

/-- Every law of an ordering but reflexivity: a value may be unordered with
itself, as a floating-point NaN is. -/
structure Coherent (cmp : α → α → Verdict) : Prop where
  mirror : ∀ x y, cmp y x = (cmp x y).swap
  congr : ∀ x y z, cmp x y = .equivalent → cmp x z = cmp y z
  trans : ∀ x y z, cmp x y = .less → cmp y z = .less → cmp x z = .less

structure Lawful (cmp : α → α → Verdict) : Prop extends Coherent cmp where
  refl : ∀ x, cmp x x = .equivalent

section Laws

variable {cmp : α → α → Verdict} {x y z : α}

theorem Coherent.symm (h : Coherent cmp) (hxy : cmp x y = .equivalent) :
    cmp y x = .equivalent := by
  rw [h.mirror x y, hxy]
  rfl

theorem Coherent.congr_right (h : Coherent cmp) (hxy : cmp x y = .equivalent) (z : α) :
    cmp z x = cmp z y := by
  rw [h.mirror x z, h.mirror y z, h.congr x y z hxy]

theorem Coherent.greater_iff (h : Coherent cmp) : cmp x y = .greater ↔ cmp y x = .less := by
  rw [h.mirror x y, Verdict.swap_eq_less]

theorem Coherent.not_less_self (h : Coherent cmp) : cmp x x ≠ .less := by
  intro hless
  have hgreater := h.mirror x x
  rw [hless] at hgreater
  cases hgreater

theorem Coherent.asymm (h : Coherent cmp) (hxy : cmp x y = .less) : cmp y x ≠ .less := by
  intro hyx
  exact h.not_less_self (h.trans x y x hxy hyx)

theorem Lawful.equivalence (h : Lawful cmp) : Equivalence fun x y => cmp x y = .equivalent where
  refl := h.refl
  symm := h.symm
  trans := by
    intro x y z hxy hyz
    rw [h.congr x y z hxy]
    exact hyz

/-- Where no pair is left without an order, less is a strict weak order. -/
theorem Lawful.strictWeakOrder (h : Lawful cmp) (htotal : ∀ x y, cmp x y ≠ .unordered) :
    IsStrictWeakOrder α fun x y => cmp x y = .less := by
  have hincomparable : ∀ {x y}, ¬cmp x y = .less ∧ ¬cmp y x = .less → cmp x y = .equivalent := by
    intro x y ⟨hxy, hyx⟩
    have hnot := htotal x y
    rw [h.mirror x y, Verdict.swap_eq_less] at hyx
    cases hcase : cmp x y with
    | less => exact absurd hcase hxy
    | equivalent => rfl
    | greater => exact absurd hcase hyx
    | unordered => exact absurd hcase hnot
  refine {irrefl := fun x => h.not_less_self, trans := h.trans, incomp_trans := ?_}
  intro x y z hxy hyz
  have hxz : cmp x z = .equivalent := h.equivalence.trans (hincomparable hxy) (hincomparable hyz)
  have hzx := h.symm hxz
  constructor
  · simp [hxz]
  · simp [hzx]

end Laws

section Key

variable {γ : Type v} {key : α → γ} {cmp : γ → γ → Verdict}

/-- Values compared by their keys. -/
def comap (key : α → γ) (cmp : γ → γ → Verdict) (x y : α) : Verdict :=
  cmp (key x) (key y)

theorem Coherent.comap (h : Coherent cmp) (key : α → γ) : Coherent (comap key cmp) where
  mirror x y := h.mirror (key x) (key y)
  congr x y z := h.congr (key x) (key y) (key z)
  trans x y z := h.trans (key x) (key y) (key z)

theorem Lawful.comap (h : Lawful cmp) (key : α → γ) : Lawful (ThreeWay.comap key cmp) where
  toCoherent := h.toCoherent.comap key
  refl x := h.refl (key x)

end Key

section Bottom

variable {cmp : α → α → Verdict}

/-- A comparison extended by one value below all others. -/
def withBottom (cmp : α → α → Verdict) : Option α → Option α → Verdict
  | none, none => .equivalent
  | none, some _ => .less
  | some _, none => .greater
  | some x, some y => cmp x y

theorem Coherent.withBottom (h : Coherent cmp) : Coherent (withBottom cmp) where
  mirror x y := by
    match x, y with
    | none, none => rfl
    | none, some _ => rfl
    | some _, none => rfl
    | some x, some y => exact h.mirror x y
  congr x y z hxy := by
    match x, y, z with
    | none, none, _ => rfl
    | some x, some y, none => rfl
    | some x, some y, some z => exact h.congr x y z hxy
  trans x y z hxy hyz := by
    match x, y, z with
    | none, none, none => cases hxy
    | none, some _, none => cases hyz
    | none, _, some _ => rfl
    | some x, some y, some z => exact h.trans x y z hxy hyz

theorem Lawful.withBottom (h : Lawful cmp) : Lawful (ThreeWay.withBottom cmp) where
  toCoherent := h.toCoherent.withBottom
  refl x := by
    cases x with
    | none => rfl
    | some x => exact h.refl x

end Bottom

section Lexicographic

variable {first second : α → α → Verdict} {x y : α}

/-- The second comparison decides where the first finds no difference. -/
def lexicographic (first second : α → α → Verdict) (x y : α) : Verdict :=
  if first x y = .equivalent then second x y else first x y

theorem lexicographic_equivalent_iff :
    lexicographic first second x y = .equivalent ↔
      first x y = .equivalent ∧ second x y = .equivalent := by
  unfold lexicographic
  split <;> simp_all

theorem lexicographic_less_iff :
    lexicographic first second x y = .less ↔
      first x y = .less ∨ first x y = .equivalent ∧ second x y = .less := by
  unfold lexicographic
  split <;> simp_all

theorem Coherent.lexicographic (hfirst : Coherent first) (hsecond : Coherent second) :
    Coherent (lexicographic first second) where
  mirror x y := by
    simp only [ThreeWay.lexicographic, hfirst.mirror x y, hsecond.mirror x y,
      Verdict.swap_eq_equivalent]
    split <;> rfl
  congr x y z hxy := by
    obtain ⟨hone, htwo⟩ := lexicographic_equivalent_iff.mp hxy
    unfold ThreeWay.lexicographic
    rw [hfirst.congr x y z hone, hsecond.congr x y z htwo]
  trans x y z hxy hyz := by
    rw [lexicographic_less_iff] at hxy hyz ⊢
    rcases hxy with hxy | ⟨hxy, hxy'⟩
    · rcases hyz with hyz | ⟨hyz, -⟩
      · exact .inl (hfirst.trans x y z hxy hyz)
      · exact .inl (by rw [← hfirst.congr_right hyz x]; exact hxy)
    · rcases hyz with hyz | ⟨hyz, hyz'⟩
      · exact .inl (by rw [hfirst.congr x y z hxy]; exact hyz)
      · refine .inr ⟨?_, hsecond.trans x y z hxy' hyz'⟩
        rw [hfirst.congr x y z hxy]
        exact hyz

theorem Lawful.lexicographic (hfirst : Lawful first) (hsecond : Lawful second) :
    Lawful (ThreeWay.lexicographic first second) where
  toCoherent := hfirst.toCoherent.lexicographic hsecond.toCoherent
  refl x := lexicographic_equivalent_iff.mpr ⟨hfirst.refl x, hsecond.refl x⟩

end Lexicographic

section Fallback

variable {first second : α → α → Verdict} {x y z : α}

/-- The comparison gives the two values no order, one way or the other. -/
def Open (cmp : α → α → Verdict) (x y : α) : Prop :=
  cmp x y ≠ .less ∧ cmp x y ≠ .greater

instance (cmp : α → α → Verdict) (x y : α) : Decidable (Open cmp x y) :=
  inferInstanceAs (Decidable (_ ∧ _))

/-- The second comparison decides all the pairs that the first leaves open. -/
def fallback (first second : α → α → Verdict) (x y : α) : Verdict :=
  if Open first x y then second x y else first x y

/-- `second` follows the order of `first`: what it puts at or below a value it
puts below all that `first` finds greater, and likewise from above. Nothing is
asked about pairs that `first` decides by itself. -/
structure Compatible (first second : α → α → Verdict) : Prop where
  below : ∀ x y z, first y z = .less → Open first x y → Open first x z →
    second x y = .less ∨ second x y = .equivalent → second x z = .less
  above : ∀ x y z, first y z = .less → Open first x y → Open first x z →
    second z x = .less ∨ second z x = .equivalent → second y x = .less

theorem Coherent.open_comm (h : Coherent first) : Open first x y ↔ Open first y x := by
  unfold Open
  rw [h.mirror x y, ne_eq, ne_eq, ne_eq, ne_eq, Verdict.swap_eq_less, Verdict.swap_eq_greater]
  exact and_comm

/-- Every pair is decided one way, decided the other, or left open. -/
theorem Coherent.trichotomy (h : Coherent first) (x y : α) :
    first x y = .less ∨ first y x = .less ∨ Open first x y := by
  cases hcase : first x y with
  | less => exact .inl rfl
  | greater => exact .inr (.inl (h.greater_iff.mp hcase))
  | equivalent => exact .inr (.inr ⟨by simp [hcase], by simp [hcase]⟩)
  | unordered => exact .inr (.inr ⟨by simp [hcase], by simp [hcase]⟩)

theorem Coherent.open_self (h : Coherent first) (x : α) : Open first x x :=
  ⟨h.not_less_self, fun hgreater => h.not_less_self (h.greater_iff.mp hgreater)⟩

theorem not_open_of_less (h : first x y = .less) : ¬Open first x y :=
  fun hopen => hopen.1 h

theorem fallback_of_open (h : Open first x y) : fallback first second x y = second x y :=
  if_pos h

theorem fallback_of_less (h : first x y = .less) : fallback first second x y = .less := by
  rw [fallback, if_neg (not_open_of_less h), h]

theorem Coherent.fallback_mirror (hfirst : Coherent first) (hsecond : Coherent second)
    (x y : α) : fallback first second y x = (fallback first second x y).swap := by
  unfold fallback
  simp only [hfirst.open_comm, hfirst.mirror x y, hsecond.mirror x y]
  split <;> rfl

theorem Coherent.fallback_of_more (hfirst : Coherent first) (hsecond : Coherent second)
    (h : first y x = .less) : fallback first second x y = .greater := by
  rw [hfirst.fallback_mirror hsecond y x, fallback_of_less h]
  rfl

theorem fallback_less_iff :
    fallback first second x y = .less ↔
      first x y = .less ∨ Open first x y ∧ second x y = .less := by
  constructor
  · intro h
    by_cases hopen : Open first x y
    · rw [fallback_of_open hopen] at h
      exact .inr ⟨hopen, h⟩
    · rw [fallback, if_neg hopen] at h
      exact .inl h
  · rintro (h | ⟨hopen, h⟩)
    · exact fallback_of_less h
    · rw [fallback_of_open hopen, h]

theorem Coherent.fallback_equivalent_iff (hfirst : Coherent first) (hsecond : Coherent second) :
    fallback first second x y = .equivalent ↔
      Open first x y ∧ second x y = .equivalent := by
  constructor
  · intro h
    rcases hfirst.trichotomy x y with hless | hmore | hopen
    · rw [fallback_of_less hless] at h
      cases h
    · rw [hfirst.fallback_of_more hsecond hmore] at h
      cases h
    · rw [fallback_of_open hopen] at h
      exact ⟨hopen, h⟩
  · rintro ⟨hopen, h⟩
    rw [fallback_of_open hopen, h]

/-- Less is transitive: the three verdicts may come from either comparison, and
`Compatible` settles the triples on which both are asked. -/
theorem Compatible.trans (hfirst : Coherent first) (hsecond : Coherent second)
    (h : Compatible first second) (x y z : α) (hxy : fallback first second x y = .less)
    (hyz : fallback first second y z = .less) : fallback first second x z = .less := by
  rw [fallback_less_iff] at hxy hyz ⊢
  rcases hxy with hxy | ⟨hopenxy, hxy⟩
  · rcases hyz with hyz | ⟨hopenyz, hyz⟩
    · exact .inl (hfirst.trans x y z hxy hyz)
    · rcases hfirst.trichotomy x z with hxz | hzx | hopenxz
      · exact .inl hxz
      · exact absurd (hfirst.trans z x y hzx hxy)
          fun hzy => not_open_of_less hzy (hfirst.open_comm.mp hopenyz)
      · exact .inr ⟨hopenxz, h.above z x y hxy (hfirst.open_comm.mp hopenxz)
          (hfirst.open_comm.mp hopenyz) (.inl hyz)⟩
  · rcases hyz with hyz | ⟨hopenyz, hyz⟩
    · rcases hfirst.trichotomy x z with hxz | hzx | hopenxz
      · exact .inl hxz
      · exact absurd (hfirst.trans y z x hyz hzx)
          fun hyx => not_open_of_less hyx (hfirst.open_comm.mp hopenxy)
      · exact .inr ⟨hopenxz, h.below x y z hyz hopenxy hopenxz (.inl hxy)⟩
    · rcases hfirst.trichotomy x z with hxz | hzx | hopenxz
      · exact .inl hxz
      · -- the cycle the condition is there to exclude
        have hyx := h.below y z x hzx hopenyz (hfirst.open_comm.mp hopenxy) (.inl hyz)
        exact absurd hyx (hsecond.asymm hxy)
      · exact .inr ⟨hopenxz, hsecond.trans x y z hxy hyz⟩

theorem Compatible.less_of_less (hfirst : Coherent first) (h : Compatible first second)
    (hopen : Open first x y) (hequiv : second y x = .equivalent) (hxz : first x z = .less) :
    fallback first second y z = .less := by
  have hopen' := hfirst.open_comm.mp hopen
  rcases hfirst.trichotomy y z with hyz | hzy | hopenyz
  · exact fallback_of_less hyz
  · exact absurd (hfirst.trans x z y hxz hzy) hopen.1
  · rw [fallback_of_open hopenyz]
    exact h.below y x z hxz hopen' hopenyz (.inr hequiv)

theorem Compatible.more_of_more (hfirst : Coherent first) (hsecond : Coherent second)
    (h : Compatible first second) (hopen : Open first x y) (hequiv : second x y = .equivalent)
    (hzx : first z x = .less) : fallback first second y z = .greater := by
  have hopen' := hfirst.open_comm.mp hopen
  rw [hfirst.fallback_mirror hsecond z y, Verdict.swap_eq_greater]
  rcases hfirst.trichotomy z y with hzy | hyz | hopenzy
  · exact fallback_of_less hzy
  · exact absurd (hfirst.trans y z x hyz hzx) hopen'.1
  · rw [fallback_of_open hopenzy]
    exact h.above y z x hzx (hfirst.open_comm.mp hopenzy) hopen' (.inr hequiv)

theorem Compatible.congr (hfirst : Coherent first) (hsecond : Coherent second)
    (h : Compatible first second) (x y z : α) (hxy : fallback first second x y = .equivalent) :
    fallback first second x z = fallback first second y z := by
  obtain ⟨hopen, hequiv⟩ := (hfirst.fallback_equivalent_iff hsecond).mp hxy
  have hequiv' := hsecond.symm hequiv
  have hopen' := hfirst.open_comm.mp hopen
  rcases hfirst.trichotomy x z with hxz | hzx | hopenxz
  · rw [fallback_of_less hxz, h.less_of_less hfirst hopen hequiv' hxz]
  · rw [hfirst.fallback_of_more hsecond hzx, h.more_of_more hfirst hsecond hopen hequiv hzx]
  · rcases hfirst.trichotomy y z with hyz | hzy | hopenyz
    · rw [fallback_of_less hyz, h.less_of_less hfirst hopen' hequiv hyz]
    · rw [hfirst.fallback_of_more hsecond hzy, h.more_of_more hfirst hsecond hopen' hequiv' hzy]
    · rw [fallback_of_open hopenxz, fallback_of_open hopenyz, hsecond.congr x y z hequiv]

theorem Compatible.of_coherent (hfirst : Coherent first)
    (h : Coherent (fallback first second)) : Compatible first second where
  below x y z hyz hopenxy hopenxz hxy := by
    have hfxz : fallback first second x z = second x z := fallback_of_open hopenxz
    have hfxy : fallback first second x y = second x y := fallback_of_open hopenxy
    rw [← hfxz]
    rw [← hfxy] at hxy
    rcases hxy with hxy | hxy
    · exact h.trans x y z hxy (fallback_of_less hyz)
    · rw [h.congr x y z hxy, fallback_of_less hyz]
  above x y z hyz hopenxy hopenxz hzx := by
    have hfyx : fallback first second y x = second y x :=
      fallback_of_open (hfirst.open_comm.mp hopenxy)
    have hfzx : fallback first second z x = second z x :=
      fallback_of_open (hfirst.open_comm.mp hopenxz)
    rw [← hfyx]
    rw [← hfzx] at hzx
    rcases hzx with hzx | hzx
    · exact h.trans y z x (fallback_of_less hyz) hzx
    · rw [← h.congr_right hzx y, fallback_of_less hyz]

theorem Coherent.fallback_iff (hfirst : Coherent first) (hsecond : Coherent second) :
    Coherent (fallback first second) ↔ Compatible first second := by
  constructor
  · intro h
    exact .of_coherent hfirst h
  · intro h
    exact ⟨hfirst.fallback_mirror hsecond, h.congr hfirst hsecond, h.trans hfirst hsecond⟩

/-- The second comparison supplies the reflexivity as well: no value is decided
against itself by the first. -/
theorem Lawful.fallback_iff (hfirst : Coherent first) (hsecond : Lawful second) :
    Lawful (fallback first second) ↔ Compatible first second := by
  rw [← hfirst.fallback_iff hsecond.toCoherent]
  constructor
  · intro h
    exact h.toCoherent
  · intro h
    refine ⟨h, fun x => ?_⟩
    rw [fallback_of_open (hfirst.open_self x), hsecond.refl x]

theorem Compatible.of_decided (hfirst : Coherent first)
    (htotal : ∀ x y, first x y ≠ .unordered) : Compatible first second := by
  have hequiv : ∀ {x y}, Open first x y → first x y = .equivalent := by
    intro x y ⟨hless, hgreater⟩
    have hordered := htotal x y
    cases hcase : first x y <;> simp_all
  have hnever : ∀ {x y z}, first y z = .less → Open first x y → ¬Open first x z := by
    intro x y z hyz hxy hxz
    rw [← hfirst.congr x y z (hequiv hxy)] at hyz
    exact hxz.1 hyz
  exact ⟨fun x y z hyz hxy hxz _ => absurd hxz (hnever hyz hxy),
    fun x y z hyz hxy hxz _ => absurd hxz (hnever hyz hxy)⟩

end Fallback

end YkUtil.Lib.ThreeWay
