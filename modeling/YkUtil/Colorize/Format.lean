import YkUtil.Lib.Run
import YkUtil.Colorize.Agreement

/-!
`format_colorize` against `colorize_format`. The one scans the format string with
the arguments already in their places, the other scans the format string and puts
the arguments into the result. `Markup` reads a format string for both: brackets
as the scanner does, and `{}` as `std::format` does.
-/

namespace YkUtil.Colorize

open YkUtil.Lib

/-- The number of arguments a format string takes. -/
def placeholders : List Char → Nat
  | '\x7b' :: '\x7d' :: fmt => placeholders fmt + 1
  | _ :: fmt => placeholders fmt
  | [] => 0

/-- No `{}` is between the brackets of a field; the flag tells whether one is open. -/
def fieldsPlain : Bool → List Char → Bool
  | _, [] => true
  | true, ']' :: fmt => fieldsPlain false fmt
  | true, '\x7b' :: '\x7d' :: _ => false
  | true, _ :: fmt => fieldsPlain true fmt
  | false, '[' :: '[' :: fmt => fieldsPlain false fmt
  | false, '[' :: fmt => fieldsPlain true fmt
  | false, _ :: fmt => fieldsPlain false fmt

/-- A `{}` opens here. -/
def AtPlaceholder (c : Char) (s : List Char) : Prop :=
  c = '\x7b' ∧ s.head? = some '\x7d'

/-- A format string with what `colorize` makes of it. So many of its placeholders are
`hidden` in fields. -/
inductive Markup : List Char → List Char → Nat → Prop where
  | nil : Markup [] [] 0
  | placeholder {s out : List Char} {hidden : Nat} (hrest : Markup s out hidden) :
      Markup ('\x7b' :: '\x7d' :: s) ('\x7b' :: '\x7d' :: out) hidden
  | char {c : Char} {s out : List Char} {hidden : Nat} (hc : c ≠ '[' ∧ c ≠ ']')
      (hplain : ¬ AtPlaceholder c s) (hrest : Markup s out hidden) :
      Markup (c :: s) (c :: out) hidden
  | left {s out : List Char} {hidden : Nat} (hright : ']' ∈ s) (hrest : Markup s out hidden) :
      Markup ('[' :: '[' :: s) ('[' :: out) hidden
  | right {s out : List Char} {hidden : Nat} (hrest : Markup s out hidden) :
      Markup (']' :: ']' :: s) (']' :: out) hidden
  | field {body s out : List Char} {col : Colorizer} {hidden : Nat}
      (hfield : ∀ rest, FieldText (body ++ ']' :: rest) col rest) (hbody : ']' ∉ body)
      (hrest : Markup s out hidden) :
      Markup ('[' :: (body ++ ']' :: s)) (col.colorize ++ out) (placeholders body + hidden)

section Format

variable {s : List Char} {args : List (List Char)}

theorem format_placeholder (s arg : List Char) (args : List (List Char)) :
    format ('\x7b' :: '\x7d' :: s) (arg :: args) = arg ++ format s args := by
  rw [format]

theorem format_nil (args : List (List Char)) : format [] args = [] := by
  rw [format]

theorem format_cons {c : Char} (h : ¬ AtPlaceholder c s) :
    format (c :: s) args = c :: format s args := by
  rw [format]
  rintro fmt arg args rfl rfl rfl
  exact h ⟨rfl, rfl⟩

theorem placeholders_cons {c : Char} (h : ¬ AtPlaceholder c s) :
    placeholders (c :: s) = placeholders s := by
  rw [placeholders]
  rintro fmt rfl rfl
  exact h ⟨rfl, rfl⟩

/-- Without arguments the format string stays as it is. -/
theorem format_no_args (s : List Char) : format s [] = s := by
  induction s with
  | nil => rfl
  | cons c s ih =>
    rw [format, ih]
    intro fmt arg args hargs
    cases hargs

theorem ne_placeholder {c : Char} (h : c ≠ '\x7b') (s : List Char) : ¬ AtPlaceholder c s :=
  fun hat => h hat.1

/-- A text without a place for an argument is copied, up to a character that cannot
end one. -/
theorem format_append {body : List Char} (hbody : placeholders body = 0) {c : Char}
    (hc : c ≠ '\x7d') (s : List Char) (args : List (List Char)) :
    format (body ++ c :: s) args = body ++ format (c :: s) args := by
  induction body with
  | nil => rfl
  | cons d body ih =>
    have hplain : ¬ AtPlaceholder d body := by
      rintro ⟨rfl, hhead⟩
      obtain ⟨t, rfl⟩ := List.head?_eq_some_iff.mp hhead
      rw [placeholders] at hbody
      omega
    have hplain' : ¬ AtPlaceholder d (body ++ c :: s) := by
      rintro ⟨rfl, hhead⟩
      cases body with
      | nil => exact hc (Option.some.inj hhead)
      | cons e body => exact hplain ⟨rfl, hhead⟩
    rw [placeholders_cons hplain] at hbody
    rw [List.cons_append, format_cons hplain', ih hbody, List.cons_append]

theorem mem_format {c : Char} (hc : c ≠ '\x7b' ∧ c ≠ '\x7d') (h : c ∈ s) : c ∈ format s args := by
  fun_induction format s args with
  | case1 fmt arg args ih =>
    simp only [List.mem_cons, hc.1, hc.2, false_or] at h
    exact List.mem_append_right arg (ih h)
  | case2 d fmt args hplain ih =>
    rcases List.mem_cons.mp h with rfl | h
    · exact List.mem_cons_self ..
    · exact List.mem_cons_of_mem d (ih h)
  | case3 => exact h

end Format

/-! The sequences of fields have no place for an argument. -/

theorem colorize_head (col : Colorizer) : ∃ t, col.colorize = '\x1b' :: t := by
  rw [Colorizer.colorize]
  split
  · exact ⟨_, rfl⟩
  · exact ⟨_, rfl⟩

theorem mem_intercalate {α : Type} {c sep : α} {parts : List (List α)}
    (h : c ∈ [sep].intercalate parts) : c = sep ∨ ∃ part ∈ parts, c ∈ part := by
  induction parts with
  | nil => cases h
  | cons part parts ih =>
    cases parts with
    | nil => exact .inr ⟨part, by simp, by simpa [List.intercalate] using h⟩
    | cons part' parts =>
      have hsplit : [sep].intercalate (part :: part' :: parts) =
          part ++ sep :: [sep].intercalate (part' :: parts) := by
        simp [List.intercalate]
      rw [hsplit, List.mem_append, List.mem_cons] at h
      rcases h with h | h | h
      · exact .inr ⟨part, by simp, h⟩
      · exact .inl h
      · rcases ih h with h | ⟨p, hp, hc⟩
        · exact .inl h
        · exact .inr ⟨p, List.mem_cons_of_mem _ hp, hc⟩

theorem colorize_ne_brace {col : Colorizer} {c : Char} (h : c ∈ col.colorize) : c ≠ '\x7b' := by
  rw [Colorizer.colorize] at h
  split at h
  · rintro rfl
    revert h
    decide
  · rcases List.mem_append.mp h with h | h
    · rcases List.mem_append.mp h with h | h
      · rintro rfl
        revert h
        decide
      · rcases mem_intercalate h with rfl | ⟨digits, hdigits, hc⟩
        · decide
        · obtain ⟨code, -, rfl⟩ := List.mem_map.mp hdigits
          have hdigit := Nat.isDigit_of_mem_toDigits (by decide) (by decide) hc
          rintro rfl
          cases hdigit
    · obtain rfl : c = 'm' := by simpa using h
      decide

theorem format_sequence {t : List Char} (h : ∀ c ∈ t, c ≠ '\x7b') (s : List Char)
    (args : List (List Char)) : format (t ++ s) args = t ++ format s args := by
  induction t with
  | nil => rfl
  | cons c t ih =>
    have hc := h c (List.mem_cons_self ..)
    rw [List.cons_append, format_cons (ne_placeholder hc _), List.cons_append,
      ih fun d hd => h d (List.mem_cons_of_mem c hd)]

section Markup

variable {fmt out : List Char} {hidden : Nat}

theorem Markup.head?_eq (h : Markup fmt out hidden) :
    out.head? = some '\x7d' ↔ fmt.head? = some '\x7d' := by
  cases h with
  | nil => rfl
  | placeholder hrest => simp
  | char hc hplain hrest => rfl
  | left hright hrest => simp
  | right hrest => simp
  | @field body s out col hidden hfield hbody hrest =>
    obtain ⟨t, ht⟩ := colorize_head col
    simp [ht]

theorem Markup.not_atPlaceholder {c : Char} (h : Markup fmt out hidden)
    (hplain : ¬ AtPlaceholder c fmt) : ¬ AtPlaceholder c out := by
  rintro ⟨hc, hhead⟩
  exact hplain ⟨hc, h.head?_eq.mp hhead⟩

theorem markup_close_inv (h : Markup ('\x7d' :: fmt) out hidden) :
    ∃ out', out = '\x7d' :: out' ∧ Markup fmt out' hidden := by
  cases h with
  | char _ _ hrest => exact ⟨_, rfl, hrest⟩

theorem exists_markup {segs : List Segment} (h : Reads fmt segs) :
    ∃ hidden, Markup fmt (segs.flatMap Segment.colored) hidden := by
  induction h with
  | nil => exact ⟨0, .nil⟩
  | @char c s segs hc hrest ih =>
    obtain ⟨hidden, hmarkup⟩ := ih
    by_cases hplain : AtPlaceholder c s
    · obtain ⟨rfl, hhead⟩ := hplain
      obtain ⟨s, rfl⟩ := List.head?_eq_some_iff.mp hhead
      obtain ⟨out, hout, hmarkup⟩ := markup_close_inv hmarkup
      refine ⟨hidden, ?_⟩
      rw [List.flatMap_cons, hout]
      exact .placeholder hmarkup
    · exact ⟨hidden, .char hc hplain hmarkup⟩
  | left hright hrest ih =>
    obtain ⟨hidden, hmarkup⟩ := ih
    exact ⟨hidden, .left hright hmarkup⟩
  | right hrest ih =>
    obtain ⟨hidden, hmarkup⟩ := ih
    exact ⟨hidden, .right hmarkup⟩
  | @field s rest col segs hfield hrest ih =>
    obtain ⟨hidden, hmarkup⟩ := ih
    obtain ⟨body, rfl, hbody, hany⟩ := fieldText_split hfield
    exact ⟨_, .field hany hbody hmarkup⟩

theorem placeholders_append {body : List Char} {c : Char} (hc : c ≠ '\x7d') (s : List Char) :
    placeholders (body ++ c :: s) = placeholders body + placeholders (c :: s) := by
  fun_induction placeholders body with
  | case1 body ih =>
    rw [List.cons_append, List.cons_append, placeholders, ih]
    omega
  | case2 d body hplain ih =>
    rw [List.cons_append, placeholders_cons, ih]
    rintro ⟨rfl, hhead⟩
    cases body with
    | nil => exact hc (Option.some.inj hhead)
    | cons e body =>
      obtain rfl : e = '\x7d' := by simpa using hhead
      exact hplain body rfl rfl
  | case3 => simp

theorem placeholders_sequence {t : List Char} (h : ∀ c ∈ t, c ≠ '\x7b') (s : List Char) :
    placeholders (t ++ s) = placeholders s := by
  induction t with
  | nil => rfl
  | cons c t ih =>
    have hc := h c (List.mem_cons_self ..)
    rw [List.cons_append, placeholders_cons (ne_placeholder hc _),
      ih fun d hd => h d (List.mem_cons_of_mem c hd)]

/-- A placeholder is kept in the output, or hidden in a field. -/
theorem Markup.placeholders_eq (h : Markup fmt out hidden) :
    placeholders fmt = placeholders out + hidden := by
  induction h with
  | nil => rfl
  | placeholder hrest ih =>
    rw [placeholders, placeholders, ih]
    omega
  | char hc hplain hrest ih =>
    rw [placeholders_cons hplain, placeholders_cons (hrest.not_atPlaceholder hplain), ih]
  | left hright hrest ih =>
    have hne : ∀ t, ¬ AtPlaceholder '[' t := ne_placeholder (by decide)
    rw [placeholders_cons (hne _), placeholders_cons (hne _), placeholders_cons (hne _), ih]
  | right hrest ih =>
    have hne : ∀ t, ¬ AtPlaceholder ']' t := ne_placeholder (by decide)
    rw [placeholders_cons (hne _), placeholders_cons (hne _), placeholders_cons (hne _), ih]
  | field hfield hbody hrest ih =>
    rw [placeholders_cons (ne_placeholder (by decide) _), placeholders_append (by decide),
      placeholders_cons (ne_placeholder (by decide) _),
      placeholders_sequence fun c hc => colorize_ne_brace hc, ih]
    omega

theorem fieldsPlain_text {c : Char} (hc : c ≠ '[') (s : List Char) :
    fieldsPlain false (c :: s) = fieldsPlain false s := by
  rw [fieldsPlain]
  · rintro fmt rfl rfl
    exact hc rfl
  · exact hc

theorem fieldsPlain_open {s : List Char} (hs : s.head? ≠ some '[') :
    fieldsPlain false ('[' :: s) = fieldsPlain true s := by
  rw [fieldsPlain]
  rintro fmt rfl
  exact hs rfl

theorem fieldsPlain_field {body : List Char} (hbody : ']' ∉ body) (s : List Char) :
    fieldsPlain true (body ++ ']' :: s) = (placeholders body == 0 && fieldsPlain false s) := by
  fun_induction placeholders body with
  | case1 body ih => simp [fieldsPlain]
  | case2 d body hplain ih =>
    have hd : d ≠ ']' := fun h => hbody (h ▸ List.mem_cons_self ..)
    rw [List.cons_append, fieldsPlain, ih fun h => hbody (List.mem_cons_of_mem d h)]
    · exact hd
    · rintro fmt rfl hfmt
      cases body with
      | nil => cases hfmt
      | cons e body => exact hplain body rfl (by rw [(List.cons.inj hfmt).1])
  | case3 => rfl

theorem Markup.fieldsPlain_iff (h : Markup fmt out hidden) :
    fieldsPlain false fmt = true ↔ hidden = 0 := by
  induction h with
  | nil => simp [fieldsPlain]
  | placeholder hrest ih =>
    rwa [fieldsPlain_text (by decide), fieldsPlain_text (by decide)]
  | char hc hplain hrest ih => rwa [fieldsPlain_text hc.1]
  | left hright hrest ih => rwa [fieldsPlain]
  | right hrest ih => rwa [fieldsPlain_text (by decide), fieldsPlain_text (by decide)]
  | @field body s out col hidden hfield hbody hrest ih =>
    have hhead : (body ++ ']' :: s).head? ≠ some '[' := by
      obtain ⟨c, t, ht, hc⟩ := fieldText_startsField (hfield s)
      rw [ht]
      have hne := StartsField.ne ⟨c, t, rfl, hc⟩
      simpa using hne.1
    rw [fieldsPlain_open hhead, fieldsPlain_field hbody, Bool.and_eq_true, beq_iff_eq, ih]
    omega

end Markup

/-- A field without a place for an argument is not changed. -/
theorem format_field {body : List Char} (hbody : placeholders body = 0) (s : List Char)
    (args : List (List Char)) :
    format ('[' :: (body ++ ']' :: s)) args = '[' :: (body ++ ']' :: format s args) := by
  rw [format_cons (ne_placeholder (by decide) _), format_append hbody (by decide),
    format_cons (ne_placeholder (by decide) _)]

theorem format_colorize (col : Colorizer) (out : List Char) (args : List (List Char)) :
    format (col.colorize ++ out) args = col.colorize ++ format out args :=
  format_sequence (fun _ hc => colorize_ne_brace hc) out args

/-! Runs of brackets. The scanner makes one character of two, `std::format` copies
each bracket of an argument. -/

section Runs

variable {s out t : List Char} {segs : List Segment} {b : Char} {m hidden : Nat}

theorem reads_head?_left (h : Reads s segs) (hs : s.head? ≠ some '[') :
    (segs.flatMap Segment.colored).head? = s.head? := by
  cases h with
  | nil => rfl
  | char hc hrest => rfl
  | left hright hrest => exact absurd rfl hs
  | right hrest => rfl
  | field hfield hrest => exact absurd rfl hs

theorem reads_head?_right (h : Reads s segs) (hs : s.head? ≠ some ']') :
    (segs.flatMap Segment.colored).head? ≠ some ']' := by
  cases h with
  | nil => exact hs
  | char hc hrest => exact hs
  | left hright hrest => simp [Segment.colored]
  | right hrest => exact absurd rfl hs
  | @field s rest col segs hfield hrest =>
    obtain ⟨t, ht⟩ := colorize_head col
    simp [Segment.colored, ht]

theorem reads_run_left (h : Reads s segs) (hrun : Run '[' s m t) :
    ∃ t', Run '[' (segs.flatMap Segment.colored) (m / 2) t' ∧
      (m % 2 = 0 → t'.head? = t.head?) := by
  induction m using Nat.twoStepInduction generalizing s segs with
  | zero =>
    obtain rfl := hrun.eq_of_zero
    have hhead := reads_head?_left h hrun.stop
    exact ⟨_, .zero (hhead ▸ hrun.stop), fun _ => hhead⟩
  | one =>
    obtain ⟨s', rfl, htail⟩ := hrun.tail
    obtain rfl := htail.eq_of_zero
    refine ⟨segs.flatMap Segment.colored, .zero ?_, by simp⟩
    cases h with
    | char hc _ => exact absurd rfl hc.1
    | left _ _ => exact absurd rfl htail.stop
    | @field s rest col segs _ _ =>
      obtain ⟨t, ht⟩ := colorize_head col
      simp [Segment.colored, ht]
  | more m ih _ =>
    obtain ⟨s₁, rfl, hrun₁⟩ := hrun.tail
    obtain ⟨s₂, rfl, hrun₂⟩ := hrun₁.tail
    obtain ⟨-, segs', rfl, hrest⟩ := reads_left_inv h
    obtain ⟨t', hrun', heven⟩ := ih hrest hrun₂
    refine ⟨t', ?_, fun h => heven (by omega)⟩
    rw [Nat.add_div_right m Nat.two_pos]
    exact hrun'.cons

theorem reads_run_right (h : Reads s segs) (hrun : Run ']' s m t) :
    ∃ t', Run ']' (segs.flatMap Segment.colored) (m / 2) t' := by
  induction m using Nat.twoStepInduction generalizing s segs with
  | zero =>
    obtain rfl := hrun.eq_of_zero
    exact ⟨_, .zero (reads_head?_right h hrun.stop)⟩
  | one =>
    obtain ⟨s', rfl, htail⟩ := hrun.tail
    obtain rfl := htail.eq_of_zero
    obtain ⟨s'', segs', rfl, -, -⟩ := reads_right_inv h
    exact absurd rfl htail.stop
  | more m ih _ =>
    obtain ⟨s₁, rfl, hrun₁⟩ := hrun.tail
    obtain ⟨s₂, rfl, hrun₂⟩ := hrun₁.tail
    obtain ⟨s', segs', hs, rfl, hrest⟩ := reads_right_inv h
    obtain ⟨-, rfl⟩ := List.cons.inj hs
    obtain ⟨t', hrun'⟩ := ih hrest hrun₂
    refine ⟨t', ?_⟩
    rw [Nat.add_div_right m Nat.two_pos]
    exact hrun'.cons

/-- A run of brackets in the formatted string is at most twice that in the formatted
output, or it opens a field with one more. -/
structure Paired (b : Char) (u v : Nat) (t t' : List Char) : Prop where
  le : u ≤ 2 * v ∨
    b = '[' ∧ u = 2 * v + 1 ∧ t.head? ≠ some '\x1b' ∧ t'.head? = some '\x1b'

theorem Paired.same (b : Char) (n : Nat) (t t' : List Char) : Paired b n n t t' :=
  ⟨.inl (by omega)⟩

/-- Brackets of an argument are copied on both sides. -/
theorem Paired.copied {u v : Nat} {t t' : List Char} (h : Paired b u v t t') (n : Nat) :
    Paired b (n + u) (n + v) t t' := by
  rcases h.le with hle | ⟨hleft, hu, ht, ht'⟩
  · exact ⟨.inl (by omega)⟩
  · by_cases hn : n = 0
    · exact ⟨.inr ⟨hleft, by omega, ht, ht'⟩⟩
    · exact ⟨.inl (by omega)⟩

theorem Paired.escape {u v : Nat} {t t' : List Char} (h : Paired b u v t t') :
    Paired b (u + 2) (v + 1) t t' := by
  rcases h.le with hle | ⟨hleft, hu, ht, ht'⟩
  · exact ⟨.inl (by omega)⟩
  · exact ⟨.inr ⟨hleft, by omega, ht, ht'⟩⟩

theorem Markup.run (h : Markup s out hidden) (hhidden : hidden = 0) (hb : b = '[' ∨ b = ']')
    (args : List (List Char)) :
    ∃ u v t t', Run b (format s args) u t ∧ Run b (format out args) v t' ∧ Paired b u v t t' := by
  have hnone : ∀ {x y : List Char}, x.head? ≠ some b → y.head? ≠ some b →
      ∃ u v t t', Run b x u t ∧ Run b y v t' ∧ Paired b u v t t' := by
    intro x y hx hy
    exact ⟨0, 0, x, y, .zero hx, .zero hy, .same b 0 x y⟩
  induction h generalizing args with
  | nil => exact hnone (by simp [format_nil]) (by simp [format_nil])
  | @placeholder s out hidden hrest ih =>
    cases args with
    | nil =>
      have hne : ∀ t : List Char, ('\x7b' :: t).head? ≠ some b := by
        rcases hb with rfl | rfl <;> simp
      rw [format_no_args, format_no_args]
      exact hnone (hne _) (hne _)
    | cons arg args =>
      obtain ⟨u, v, t, t', hu, hv, hpaired⟩ := ih hhidden args
      obtain ⟨n, q, harg⟩ := Run.exists_run b arg
      rw [format_placeholder, format_placeholder]
      by_cases hq : q = []
      · subst hq
        exact ⟨n + u, n + v, t, t', harg.append hu, harg.append hv, hpaired.copied n⟩
      · exact ⟨n, n, _, _, harg.append_right hq _, harg.append_right hq _, .same b n _ _⟩
  | @char c s out hidden hc hplain hrest ih =>
    have hne : ∀ t : List Char, (c :: t).head? ≠ some b := by
      rcases hb with rfl | rfl
      · simpa using hc.1
      · simpa using hc.2
    rw [format_cons hplain, format_cons (hrest.not_atPlaceholder hplain)]
    exact hnone (hne _) (hne _)
  | @left s out hidden hright hrest ih =>
    have hformat : ∀ t, format ('[' :: t) args = '[' :: format t args :=
      fun t => format_cons (ne_placeholder (by decide) t)
    rw [hformat, hformat, hformat]
    rcases hb with rfl | rfl
    · obtain ⟨u, v, t, t', hu, hv, hpaired⟩ := ih hhidden args
      exact ⟨u + 2, v + 1, t, t', hu.cons.cons, hv.cons, hpaired.escape⟩
    · exact hnone (by simp) (by simp)
  | @right s out hidden hrest ih =>
    have hformat : ∀ t, format (']' :: t) args = ']' :: format t args :=
      fun t => format_cons (ne_placeholder (by decide) t)
    rw [hformat, hformat, hformat]
    rcases hb with rfl | rfl
    · exact hnone (by simp) (by simp)
    · obtain ⟨u, v, t, t', hu, hv, hpaired⟩ := ih hhidden args
      exact ⟨u + 2, v + 1, t, t', hu.cons.cons, hv.cons, hpaired.escape⟩
  | @field body s out col hidden hfield hbody hrest ih =>
    obtain ⟨seq, hseq⟩ := colorize_head col
    obtain ⟨c, text, htext, hc⟩ := fieldText_startsField (hfield (format s args))
    have hne := StartsField.ne ⟨c, text, rfl, hc⟩
    have hescape : (col.colorize ++ format out args).head? = some '\x1b' := by
      rw [hseq]
      rfl
    rw [format_field (by omega), format_colorize]
    rcases hb with rfl | rfl
    · refine ⟨1, 0, body ++ ']' :: format s args, _, (Run.zero ?_).cons, .zero ?_,
        ⟨.inr ⟨rfl, rfl, ?_, hescape⟩⟩⟩
      · rw [htext]
        simpa using hne.1
      · rw [hescape]
        simp
      · rw [htext]
        simpa using hne.2.2
    · apply hnone
      · simp
      · rw [hescape]
        simp

/-- From the first bracket of an argument on, the scanner's output is another one. -/
theorem Markup.ne_of_bracket (h : Markup s out 0) (hb : b = '[' ∨ b = ']') (q : List Char)
    (args : List (List Char)) (hreads : Reads (b :: (q ++ format s args)) segs) :
    segs.flatMap Segment.colored ≠ b :: (q ++ format out args) := by
  intro heq
  obtain ⟨u, v, t, t', hu, hv, hpaired⟩ := h.run rfl hb args
  obtain ⟨n, r, hq⟩ := Run.exists_run b q
  -- the run in the input, the run it is read as, and the run that is asked for
  have hread : ∀ m x, Run b (b :: (q ++ format s args)) m x →
      ∃ y, Run b (segs.flatMap Segment.colored) (m / 2) y ∧
        (b = '[' → m % 2 = 0 → y.head? = x.head?) := by
    intro m x hrun
    rcases hb with rfl | rfl
    · obtain ⟨y, hy, heven⟩ := reads_run_left hreads hrun
      exact ⟨y, hy, fun _ => heven⟩
    · obtain ⟨y, hy⟩ := reads_run_right hreads hrun
      exact ⟨y, hy, fun h => by cases h⟩
  rw [heq] at hread
  by_cases hr : r = []
  · subst hr
    obtain ⟨y, hy, heven⟩ := hread _ _ (hq.append hu).cons
    obtain ⟨hlength, rfl⟩ := hy.unique (hq.append hv).cons
    rcases hpaired.le with hle | ⟨hleft, hu', ht, ht'⟩
    · omega
    · have hhead := heven hleft (by omega)
      rw [ht'] at hhead
      exact ht hhead.symm
  · obtain ⟨y, hy, -⟩ := hread _ _ (hq.append_right hr _).cons
    obtain ⟨hlength, -⟩ := hy.unique (hq.append_right hr _).cons
    omega

end Runs

section Agree

variable {s out txt : List Char} {segs : List Segment}

theorem reads_append (h : BracketFree txt) (hreads : Reads s segs) :
    Reads (txt ++ s) (txt.map Segment.char ++ segs) := by
  induction txt with
  | nil => exact hreads
  | cons c txt ih =>
    obtain ⟨hc, htxt⟩ := List.forall_mem_cons.mp h
    exact .char hc (ih htxt)

theorem reads_append_inv (h : BracketFree txt) (hreads : Reads (txt ++ s) segs) :
    ∃ segs', segs = txt.map Segment.char ++ segs' ∧ Reads s segs' := by
  induction txt generalizing segs with
  | nil => exact ⟨segs, rfl, hreads⟩
  | cons c txt ih =>
    obtain ⟨hc, htxt⟩ := List.forall_mem_cons.mp h
    obtain ⟨segs₁, rfl, htail⟩ := reads_char_inv hc hreads
    obtain ⟨segs₂, rfl, hrest⟩ := ih htxt htail
    exact ⟨segs₂, rfl, hrest⟩

theorem not_bracketFree (h : ¬ BracketFree txt) :
    ∃ p b q, txt = p ++ b :: q ∧ BracketFree p ∧ (b = '[' ∨ b = ']') := by
  induction txt with
  | nil => exact absurd bracketFree_nil h
  | cons c txt ih =>
    by_cases hc : c = '[' ∨ c = ']'
    · exact ⟨[], c, txt, rfl, bracketFree_nil, hc⟩
    · have hc' : c ≠ '[' ∧ c ≠ ']' := not_or.mp hc
      have htxt : ¬ BracketFree txt := fun htxt => h (List.forall_mem_cons.mpr ⟨hc', htxt⟩)
      obtain ⟨p, b, q, rfl, hp, hb⟩ := ih htxt
      exact ⟨c :: p, b, q, rfl, List.forall_mem_cons.mpr ⟨hc', hp⟩, hb⟩

/-- The formatted string is read as the formatted output. -/
def Agrees (s out : List Char) (args : List (List Char)) : Prop :=
  ∃ segs, Reads (format s args) segs ∧ segs.flatMap Segment.colored = format out args

/-- One segment more on both sides. -/
theorem agrees_congr (pre : List Segment) {s' out' t : List Char} {args args' : List (List Char)}
    (ht : pre.flatMap Segment.colored = t)
    (hreads : ∀ segs, Reads (format s' args') segs ↔
      ∃ segs', segs = pre ++ segs' ∧ Reads (format s args) segs')
    (hout : format out' args' = t ++ format out args) :
    Agrees s' out' args' ↔ Agrees s out args := by
  constructor
  · rintro ⟨segs, h, heq⟩
    obtain ⟨segs', rfl, h'⟩ := (hreads segs).mp h
    rw [List.flatMap_append, ht, hout] at heq
    exact ⟨segs', h', List.append_cancel_left heq⟩
  · rintro ⟨segs, h, heq⟩
    refine ⟨pre ++ segs, (hreads _).mpr ⟨segs, rfl, h⟩, ?_⟩
    rw [List.flatMap_append, ht, heq, hout]

/-- What the format string with all its placeholders is read as. -/
theorem Markup.reads {hidden : Nat} (h : Markup s out hidden) :
    ∃ segs, Reads s segs ∧ segs.flatMap Segment.colored = out := by
  induction h with
  | nil => exact ⟨[], .nil, rfl⟩
  | placeholder hrest ih =>
    obtain ⟨segs, hreads, rfl⟩ := ih
    exact ⟨_, .char (by decide) (.char (by decide) hreads), rfl⟩
  | char hc hplain hrest ih =>
    obtain ⟨segs, hreads, rfl⟩ := ih
    exact ⟨_, .char hc hreads, rfl⟩
  | left hright hrest ih =>
    obtain ⟨segs, hreads, rfl⟩ := ih
    exact ⟨_, .left hright hreads, rfl⟩
  | right hrest ih =>
    obtain ⟨segs, hreads, rfl⟩ := ih
    exact ⟨_, .right hreads, rfl⟩
  | field hfield hbody hrest ih =>
    obtain ⟨segs, hreads, rfl⟩ := ih
    exact ⟨_, .field (hfield _) hreads, rfl⟩

theorem Markup.agrees_no_args {hidden : Nat} (h : Markup s out hidden) : Agrees s out [] := by
  obtain ⟨segs, hreads, heq⟩ := h.reads
  exact ⟨segs, by rwa [format_no_args], by rwa [format_no_args]⟩

/-- An argument that is put into the text. -/
theorem Markup.agrees_argument (h : Markup s out 0) (arg : List Char) (args : List (List Char)) :
    Agrees ('\x7b' :: '\x7d' :: s) ('\x7b' :: '\x7d' :: out) (arg :: args) ↔
      BracketFree arg ∧ Agrees s out args := by
  by_cases harg : BracketFree arg
  · rw [and_iff_right harg]
    apply agrees_congr (arg.map Segment.char) (t := arg)
    · simpa using colored_chars arg []
    · intro segs
      rw [format_placeholder]
      constructor
      · exact reads_append_inv harg
      · rintro ⟨segs', rfl, h⟩
        exact reads_append harg h
    · exact format_placeholder out arg args
  · refine iff_of_false ?_ (fun hboth => harg hboth.1)
    obtain ⟨p, b, q, rfl, hp, hb⟩ := not_bracketFree harg
    rintro ⟨segs, hreads, heq⟩
    rw [format_placeholder, List.append_assoc] at hreads heq
    obtain ⟨segs', rfl, hrest⟩ := reads_append_inv hp hreads
    rw [colored_chars] at heq
    exact h.ne_of_bracket hb q args hrest (List.append_cancel_left heq)

theorem Markup.agrees_iff {hidden : Nat} (h : Markup s out hidden) (hhidden : hidden = 0)
    (args : List (List Char)) :
    Agrees s out args ↔ ∀ arg ∈ args.take (placeholders s), BracketFree arg := by
  induction h generalizing args with
  | nil =>
    refine iff_of_true ⟨[], ?_, ?_⟩ (by simp [placeholders])
    · rw [format_nil]
      exact .nil
    · rw [format_nil]
      rfl
  | @placeholder s out hidden hrest ih =>
    cases args with
    | nil => exact iff_of_true (Markup.placeholder hrest).agrees_no_args (by simp)
    | cons arg args =>
      subst hhidden
      rw [placeholders, List.take_succ_cons, List.forall_mem_cons, ← ih rfl args]
      exact hrest.agrees_argument arg args
  | @char c s out hidden hc hplain hrest ih =>
    rw [placeholders_cons hplain, ← ih hhidden args]
    apply agrees_congr [.char c] rfl
    · intro segs
      rw [format_cons hplain]
      constructor
      · exact reads_char_inv hc
      · rintro ⟨segs', rfl, h⟩
        exact .char hc h
    · exact format_cons (hrest.not_atPlaceholder hplain)
  | @left s out hidden hright hrest ih =>
    have hne : ∀ t, ¬ AtPlaceholder '[' t := ne_placeholder (by decide)
    rw [placeholders_cons (hne _), placeholders_cons (hne _), ← ih hhidden args]
    apply agrees_congr [.char '['] rfl
    · intro segs
      rw [format_cons (hne _), format_cons (hne _)]
      constructor
      · intro h
        exact (reads_left_inv h).2
      · rintro ⟨segs', rfl, h⟩
        exact .left (mem_format (by decide) hright) h
    · exact format_cons (hne _)
  | @right s out hidden hrest ih =>
    have hne : ∀ t, ¬ AtPlaceholder ']' t := ne_placeholder (by decide)
    rw [placeholders_cons (hne _), placeholders_cons (hne _), ← ih hhidden args]
    apply agrees_congr [.char ']'] rfl
    · intro segs
      rw [format_cons (hne _), format_cons (hne _)]
      constructor
      · intro h
        obtain ⟨s', segs', hs, hsegs, hrest'⟩ := reads_right_inv h
        obtain ⟨-, rfl⟩ := List.cons.inj hs
        exact ⟨segs', hsegs, hrest'⟩
      · rintro ⟨segs', rfl, h⟩
        exact .right h
    · exact format_cons (hne _)
  | @field body s out col hidden hfield hbody hrest ih =>
    have hplain : placeholders body = 0 := by omega
    rw [placeholders_cons (ne_placeholder (by decide) _), placeholders_append (by decide), hplain,
      Nat.zero_add, placeholders_cons (ne_placeholder (by decide) _), ← ih (by omega) args]
    apply agrees_congr [.field col] (List.flatMap_singleton ..)
    · intro segs
      rw [format_field hplain]
      constructor
      · exact reads_field_inv (hfield _)
      · rintro ⟨segs', rfl, h⟩
        exact .field (hfield _) h
    · exact format_colorize col out args

end Agree

theorem reads_of_checkString {fmt : List Char} (h : checkString fmt = .ok ()) :
    ∃ segs, Reads fmt segs := by
  rcases scan_cases fmt with hreads | hover | ⟨what, hthrow⟩
  · exact hreads
  · cases h.symm.trans (checkString_of_fails (fails_of_overruns hover))
  · cases h.symm.trans (checkString_of_fails hthrow)

theorem formatColorize_eq_ok {fmt out : List Char} {args : List (List Char)} :
    formatColorize fmt args = .ok (format out args) ↔ Agrees fmt out args := by
  constructor
  · intro h
    rcases scan_cases (format fmt args) with ⟨segs, hreads⟩ | hover | ⟨what, hthrow⟩
    · have heq := h.symm.trans (colorize_of_reads hreads)
      exact ⟨segs, hreads, (Except.ok.inj heq).symm⟩
    · cases h.symm.trans (colorizeTo_of_fails (fails_of_overruns hover) {})
    · cases h.symm.trans (colorizeTo_of_fails hthrow {})
  · rintro ⟨segs, hreads, heq⟩
    rw [formatColorize, colorize_of_reads hreads, heq]

/-- The result is that of `colorize_format`, and all arguments of the format string
are in it. -/
def Verbatim (fmt : List Char) (args : List (List Char)) : Prop :=
  ∃ col, colorize {} fmt = .ok col ∧ placeholders col = placeholders fmt ∧
    formatColorize fmt args = .ok (format col args)

/-- `format_colorize` gives the arguments verbatim exactly when none is put into a
field and none of those put into the text has a bracket. Where no field has a place
for an argument, the two functions agree on the same condition. -/
theorem format_colorize_iff {fmt : List Char} (hfmt : checkString fmt = .ok ())
    (args : List (List Char)) :
    (Verbatim fmt args ↔
      fieldsPlain false fmt = true ∧ ∀ arg ∈ args.take (placeholders fmt), BracketFree arg) ∧
    (fieldsPlain false fmt = true →
      ((∃ s, formatColorize fmt args = .ok s ∧ colorizeFormat fmt args = .ok s) ↔
        ∀ arg ∈ args.take (placeholders fmt), BracketFree arg)) := by
  obtain ⟨segs, hreads⟩ := reads_of_checkString hfmt
  obtain ⟨hidden, hmarkup⟩ := exists_markup hreads
  have hcol := colorize_of_reads hreads
  generalize segs.flatMap Segment.colored = out at hmarkup hcol
  have hother : colorizeFormat fmt args = .ok (format out args) := by
    rw [colorizeFormat, hcol, Outcome.ok_bind]
  have hkept : placeholders out = placeholders fmt ↔ fieldsPlain false fmt = true := by
    rw [hmarkup.fieldsPlain_iff, hmarkup.placeholders_eq]
    omega
  constructor
  · rw [← hkept]
    constructor
    · rintro ⟨col, hcol', hkept', h⟩
      obtain rfl := Except.ok.inj (hcol.symm.trans hcol')
      have hhidden := hmarkup.fieldsPlain_iff.mp (hkept.mp hkept')
      exact ⟨hkept', (hmarkup.agrees_iff hhidden args).mp (formatColorize_eq_ok.mp h)⟩
    · rintro ⟨hkept', h⟩
      have hhidden := hmarkup.fieldsPlain_iff.mp (hkept.mp hkept')
      exact ⟨out, hcol, hkept', formatColorize_eq_ok.mpr ((hmarkup.agrees_iff hhidden args).mpr h)⟩
  · intro hplain
    have hhidden := hmarkup.fieldsPlain_iff.mp hplain
    rw [← hmarkup.agrees_iff hhidden args, ← formatColorize_eq_ok]
    constructor
    · rintro ⟨s, hs, hs'⟩
      rw [hs, ← hs', hother]
    · intro h
      exact ⟨_, h, hother⟩

theorem format_colorize_iff_red :
    (Verbatim "[red]\x7b\x7d".toList ["42".toList] ↔
      fieldsPlain false "[red]\x7b\x7d".toList = true ∧
        ∀ arg ∈ ["42".toList].take (placeholders "[red]\x7b\x7d".toList), BracketFree arg) ∧
    (fieldsPlain false "[red]\x7b\x7d".toList = true →
      ((∃ s, formatColorize "[red]\x7b\x7d".toList ["42".toList] = .ok s ∧
          colorizeFormat "[red]\x7b\x7d".toList ["42".toList] = .ok s) ↔
        ∀ arg ∈ ["42".toList].take (placeholders "[red]\x7b\x7d".toList), BracketFree arg)) :=
  format_colorize_iff (by decide) ["42".toList]

/-- The text of the argument is taken for a field. -/
theorem argument_read_as_field :
    ¬ ∀ (fmt : List Char) (args : List (List Char)), checkString fmt = .ok () →
      ∃ s, formatColorize fmt args = .ok s ∧ colorizeFormat fmt args = .ok s := by
  intro h
  obtain ⟨s, hs, hs'⟩ := h "\x7b\x7d".toList ["[red]".toList] (by decide)
  have hne : formatColorize "\x7b\x7d".toList ["[red]".toList] ≠
      colorizeFormat "\x7b\x7d".toList ["[red]".toList] := by decide
  exact hne (hs.trans hs'.symm)

end YkUtil.Colorize
