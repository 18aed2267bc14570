/-
# Searching a text for a pattern

`List.dropInfix?` cuts a list at the first place where a pattern stands. Where
that is, is said by `Clear p a r`: no occurrence of `p` begins in `a` when `r`
follows it. A text put together from parts is clear part by part, so the first
occurrence in it can be found without looking across the parts.

Key definitions: `Clear`, `afterLast`, `strip`.
Key theorems: `dropInfix_of_clear`, `clear_of_stop`, `clear_of_literal`,
`afterLast_of_clear`.
-/
import Mathlib.Data.List.DropRight
import Mathlib.Data.List.Infix
import Mathlib.Data.List.TakeWhile
import Mathlib.Data.Nat.Find
import Mathlib.Data.Nat.Notation

namespace Search

variable {α : Type*}

/-! ### Where no occurrence begins -/

/-- No occurrence of `p` begins in `a` when `r` follows it. -/
def Clear (p a r : List α) : Prop := ∀ b c, a = b ++ c → c ≠ [] → ¬p <+: c ++ r

variable {p q a b r : List α}

theorem clear_nil : Clear p [] r := by
  intro b c h hc
  exact absurd (List.append_eq_nil_iff.mp h.symm).2 hc

theorem Clear.append (ha : Clear p a (b ++ r)) (hb : Clear p b r) : Clear p (a ++ b) r := by
  intro c d h hd hp
  rcases List.append_eq_append_iff.mp h with ⟨e, rfl, rfl⟩ | ⟨e, rfl, rfl⟩
  · exact hb e d rfl hd hp
  · by_cases he : e = []
    · rw [he, List.nil_append] at hp hd
      exact hb [] b rfl hd hp
    · rw [List.append_assoc] at hp
      exact ha c e rfl he hp

/-- A longer pattern begins where the shorter one does. -/
theorem Clear.longer (h : Clear p a r) (q : List α) : Clear (p ++ q) a r := fun b c he hc hp =>
  h b c he hc ((List.prefix_append p q).trans hp)

theorem Clear.cons_iff {x : α} : Clear p (x :: a) r ↔ (¬p <+: x :: (a ++ r)) ∧ Clear p a r := by
  constructor
  · intro h
    refine ⟨h [] (x :: a) rfl (List.cons_ne_nil _ _), ?_⟩
    rintro b c rfl hc
    exact h (x :: b) c rfl hc
  · rintro ⟨h1, h2⟩ b c he hc
    cases b with
    | nil =>
      rw [← show x :: a = c from he]
      exact h1
    | cons y b => exact h2 b c (List.cons.inj he).2 hc

/-- A text without the first letter of a pattern is clear of it. -/
theorem clear_of_head {x : α} (h : x ∉ a) : Clear (x :: p) a r := by
  rintro b c rfl hc hp
  obtain ⟨y, d, rfl⟩ := List.exists_cons_of_ne_nil hc
  obtain ⟨e, he⟩ := hp
  rw [List.cons_append, List.cons_append] at he
  rw [(List.cons.inj he).1] at h
  exact h (by simp)

/-- A pattern cannot cross a letter that is not in it beyond its first. -/
theorem clear_of_stop {x : α} (h : ¬p <:+: a) (hx : x ∉ p.tail) : Clear p a (x :: r) := by
  rintro b c rfl hc hp
  obtain ⟨y, d, rfl⟩ := List.exists_cons_of_ne_nil hc
  rcases List.prefix_or_prefix_of_prefix hp (List.prefix_append (y :: d) (x :: r)) with h1 | ⟨e, rfl⟩
  · exact h (h1.isInfix.trans (List.suffix_append b (y :: d)).isInfix)
  · rw [List.prefix_append_right_inj] at hp
    cases e with
    | nil => exact h (by simpa using (List.suffix_append b (y :: d)).isInfix)
    | cons z e =>
      obtain ⟨f, hf⟩ := hp
      obtain rfl : z = x := (List.cons.inj hf).1
      exact hx (by simp)

/-- No suffix of a text begins a pattern, or has it at its beginning. -/
def Apart [DecidableEq α] (p a : List α) : Bool := a.tails.all fun s => s = [] ∨ (¬s <+: p ∧ ¬p <+: s)

/-- Such a text is clear whatever follows. -/
theorem clear_of_literal [DecidableEq α] (h : Apart p a) : Clear p a r := by
  rintro b c rfl hc hp
  unfold Apart at h
  rw [List.all_eq_true] at h
  have hs := h c ((List.mem_tails _ _).mpr (List.suffix_append b c))
  rw [decide_eq_true_eq] at hs
  obtain ⟨h1, h2⟩ := hs.resolve_left hc
  rcases List.prefix_or_prefix_of_prefix hp (List.prefix_append c r) with h | h
  · exact h2 h
  · exact h1 h

theorem clear_of_not_infix (h : ¬p <:+: a) : Clear p a [] := by
  rintro b c rfl hc hpre
  rw [List.append_nil] at hpre
  exact h (hpre.isInfix.trans (List.suffix_append b c).isInfix)

theorem not_infix_of_clear (hp : p ≠ []) (h : Clear p a []) : ¬p <:+: a := by
  rintro ⟨b, c, rfl⟩
  refine h b (p ++ c) (List.append_assoc _ _ _) ?_ ?_
  · simp [hp]
  · simp

/-- An occurrence does not reach into what follows, if its last letter is not
there. -/
theorem occurrence_left {x : α} {t c d : List α} (hx : x ∉ r) (h : t ++ r = c ++ (p ++ [x]) ++ d) :
    ∃ e, d = e ++ r ∧ t = c ++ (p ++ [x]) ++ e := by
  rcases List.append_eq_append_iff.mp h with ⟨e, h1, h2⟩ | ⟨e, h1, h2⟩
  · rcases List.eq_nil_or_concat e with rfl | ⟨f, y, rfl⟩
    · exact ⟨[], h2.symm, by simpa using h1.symm⟩
    · rw [List.concat_eq_append, ← List.append_assoc, ← List.append_assoc] at h1
      have hy : x = y := by simpa using congrArg List.getLast? h1
      rw [h2, hy] at hx
      exact absurd (by simp) hx
  · exact ⟨e, h2, h1⟩

/-- Nor does it begin in what stands before, if its first letter is not there. -/
theorem occurrence_right {x : α} {l t c d : List α} (hx : x ∉ l) (h : l ++ t = c ++ x :: p ++ d) :
    ∃ e, c = l ++ e ∧ t = e ++ x :: p ++ d := by
  rw [List.append_assoc] at h
  rcases List.append_eq_append_iff.mp h with ⟨e, h1, h2⟩ | ⟨e, h1, h2⟩
  · exact ⟨e, h1, by rw [h2, List.append_assoc]⟩
  · cases e with
    | nil => exact ⟨[], by rw [h1, List.append_nil, List.append_nil], by simpa using h2.symm⟩
    | cons y e =>
      have hy : x = y := (List.cons.inj h2).1
      rw [h1, hy] at hx
      exact absurd (by simp) hx

/-! ### The first occurrence -/

section First

variable [BEq α] [LawfulBEq α]

theorem dropInfix_eq_some {t : List α} : t.dropInfix? p = some (a, b) ↔
    t = a ++ p ++ b ∧ ∀ c d, t = c ++ p ++ d → a.length ≤ c.length := by
  rw [List.dropInfix?_eq_some_iff]
  constructor
  · rintro ⟨⟨i, h1, h2⟩, h3⟩
    rw [eq_of_beq h2] at h1
    exact ⟨h1, fun c d h => h3 c p d h BEq.rfl⟩
  · rintro ⟨h1, h2⟩
    refine ⟨⟨p, h1, BEq.rfl⟩, ?_⟩
    intro c i d h hi
    rw [eq_of_beq hi] at h
    exact h2 c d h

theorem dropInfix_eq_none {t : List α} : t.dropInfix? p = none ↔ ¬p <:+: t := by
  constructor
  · intro hnone hp
    classical
    have hex : ∃ n, ∃ c d, t = c ++ p ++ d ∧ c.length = n := by
      obtain ⟨c, d, h⟩ := hp
      exact ⟨c.length, c, d, h.symm, rfl⟩
    obtain ⟨c, d, h1, h2⟩ := Nat.find_spec hex
    have hsome : t.dropInfix? p = some (c, d) := by
      refine dropInfix_eq_some.mpr ⟨h1, ?_⟩
      intro c' d' h
      rw [h2]
      exact Nat.find_min' hex ⟨c', d', h, rfl⟩
    rw [hnone] at hsome
    cases hsome
  · intro h
    by_contra hs
    obtain ⟨⟨c, d⟩, hcd⟩ := Option.ne_none_iff_exists'.mp hs
    exact h ⟨c, d, (dropInfix_eq_some.mp hcd).1.symm⟩

/-- The text found and the two sides make up the whole. -/
theorem length_of_dropInfix {t : List α} (h : t.dropInfix? p = some (a, b)) :
    a.length + p.length + b.length = t.length := by
  rw [(dropInfix_eq_some.mp h).1, List.length_append, List.length_append]

theorem dropInfix_isSome {t : List α} : (t.dropInfix? p).isSome ↔ p <:+: t := by
  rw [Option.isSome_iff_ne_none, ne_eq, dropInfix_eq_none, not_not]

theorem dropInfix_of_clear (h : Clear p a (p ++ b)) : (a ++ p ++ b).dropInfix? p = some (a, b) := by
  rw [dropInfix_eq_some]
  refine ⟨rfl, ?_⟩
  intro c d he
  by_contra hlt
  rw [List.append_assoc, List.append_assoc] at he
  rcases List.append_eq_append_iff.mp he with ⟨e, rfl, h2⟩ | ⟨e, rfl, h2⟩
  · rw [List.length_append] at hlt
    omega
  · by_cases hn : e = []
    · rw [hn, List.append_nil] at hlt
      exact hlt le_rfl
    · exact h c e rfl hn ⟨d, h2⟩

theorem clear_of_dropInfix {t : List α} (h : t.dropInfix? p = some (a, b)) : Clear p a (p ++ b) := by
  obtain ⟨rfl, hmin⟩ := dropInfix_eq_some.mp h
  rintro c d rfl hd ⟨e, he⟩
  have hle := hmin c e (by rw [List.append_assoc c p e, he]; simp only [List.append_assoc])
  rw [List.length_append] at hle
  exact hd (List.length_eq_zero_iff.mp (by omega))

/-- What follows a text does not move its first occurrence. -/
theorem dropInfix_append {t : List α} (h : t.dropInfix? p = some (a, b)) (r : List α) :
    (t ++ r).dropInfix? p = some (a, b ++ r) := by
  obtain ⟨rfl, hmin⟩ := dropInfix_eq_some.mp h
  refine dropInfix_eq_some.mpr ⟨by simp, ?_⟩
  intro c d he
  by_contra hlt
  -- an earlier occurrence ends before this one, so it is in the text
  have hlen := congrArg List.length he
  simp only [List.length_append] at hlen
  have hpre : c ++ p <+: a ++ p ++ b := by
    refine List.prefix_of_prefix_length_le (List.prefix_append (c ++ p) d) ?_ ?_
    · rw [← he]
      exact List.prefix_append _ _
    · simp only [List.length_append]
      omega
  obtain ⟨e, he'⟩ := hpre
  exact hlt (hmin c e he'.symm)

/-- Nor does what stands before it, if no occurrence begins there. -/
theorem dropInfix_append_left {t c : List α} (h : t.dropInfix? p = some (a, b)) (hc : Clear p c t) :
    (c ++ t).dropInfix? p = some (c ++ a, b) := by
  have hcl := clear_of_dropInfix h
  obtain ⟨rfl, -⟩ := dropInfix_eq_some.mp h
  rw [← List.append_assoc, ← List.append_assoc]
  refine dropInfix_of_clear ?_
  refine Clear.append ?_ hcl
  rwa [← List.append_assoc]

/-! ### The last occurrence -/

/-- What stands behind the last occurrence. -/
def afterLast (p t : List α) : Option (List α) := (t.reverse.dropInfix? p.reverse).map fun x => x.1.reverse

theorem afterLast_eq_some {t : List α} : afterLast p t = some b ↔
    (∃ a, t = a ++ p ++ b) ∧ ∀ c d, t = c ++ p ++ d → b.length ≤ d.length := by
  unfold afterLast
  rw [Option.map_eq_some_iff]
  constructor
  · rintro ⟨⟨x, y⟩, h, rfl⟩
    obtain ⟨h1, h2⟩ := dropInfix_eq_some.mp h
    refine ⟨⟨y.reverse, ?_⟩, ?_⟩
    · have := congrArg List.reverse h1
      simpa using this
    · rintro c d rfl
      have := h2 d.reverse c.reverse (by simp)
      simpa using this
  · rintro ⟨⟨a, rfl⟩, h⟩
    refine ⟨(b.reverse, a.reverse), dropInfix_eq_some.mpr ⟨by simp, ?_⟩, by simp⟩
    intro c d he
    have := h d.reverse c.reverse (by simpa using congrArg List.reverse he)
    simpa using this

theorem afterLast_eq_none {t : List α} : afterLast p t = none ↔ ¬p <:+: t := by
  unfold afterLast
  rw [Option.map_eq_none_iff, dropInfix_eq_none, List.reverse_infix]

theorem afterLast_of_clear {x : α} (h : Clear (x :: p) (p ++ b) []) (a : List α) :
    afterLast (x :: p) (a ++ x :: p ++ b) = some b := by
  refine afterLast_eq_some.mpr ⟨⟨a, rfl⟩, ?_⟩
  intro c d he
  by_contra hlt
  have hlen := congrArg List.length he
  simp only [List.length_append, List.length_cons] at hlen
  rw [List.append_assoc, List.append_assoc] at he
  rcases List.append_eq_append_iff.mp he with ⟨e, rfl, h2⟩ | ⟨e, rfl, h2⟩
  · cases e with
    | nil =>
      rw [List.append_nil] at hlen
      omega
    | cons y e =>
      rw [List.cons_append, List.cons_append, List.cons.injEq] at h2
      exact h e (x :: p ++ d) h2.2 (by simp) ⟨d, by simp⟩
  · rw [List.length_append] at hlen
    omega

/-- No occurrence stands behind the last. -/
theorem not_infix_afterLast {t : List α} (hp : p ≠ []) (h : afterLast p t = some b) : ¬p <:+: b := by
  obtain ⟨⟨a, rfl⟩, hmin⟩ := afterLast_eq_some.mp h
  rintro ⟨c, d, rfl⟩
  have hle := hmin (a ++ p ++ c) d (by simp only [List.append_assoc])
  have hpos := List.length_pos_iff.mpr hp
  simp only [List.length_append] at hle
  omega

/-- What follows a text stays behind its last occurrence. -/
theorem afterLast_append {x : α} (hx : x ∉ r) (t : List α) :
    afterLast (p ++ [x]) (t ++ r) = (afterLast (p ++ [x]) t).map (· ++ r) := by
  cases h : afterLast (p ++ [x]) t with
  | none =>
    rw [afterLast_eq_none] at h
    refine afterLast_eq_none.mpr ?_
    rintro ⟨c, d, he⟩
    obtain ⟨e, -, h2⟩ := occurrence_left hx he.symm
    exact h ⟨c, e, h2.symm⟩
  | some b =>
    obtain ⟨⟨a, h1⟩, h2⟩ := afterLast_eq_some.mp h
    refine afterLast_eq_some.mpr ⟨⟨a, by rw [h1, List.append_assoc _ b r]⟩, ?_⟩
    intro c d he
    obtain ⟨e, h3, h4⟩ := occurrence_left hx he
    have := h2 c e h4
    rw [h3, List.length_append, List.length_append]
    omega

theorem afterLast_append_left {x : α} {l : List α} (hx : x ∉ l) (t : List α) :
    afterLast (x :: p) (l ++ t) = afterLast (x :: p) t := by
  cases h : afterLast (x :: p) t with
  | none =>
    rw [afterLast_eq_none] at h
    refine afterLast_eq_none.mpr ?_
    rintro ⟨c, d, he⟩
    obtain ⟨e, -, h2⟩ := occurrence_right hx he.symm
    exact h ⟨e, d, h2.symm⟩
  | some b =>
    obtain ⟨⟨a, h1⟩, h2⟩ := afterLast_eq_some.mp h
    refine afterLast_eq_some.mpr ⟨⟨l ++ a, by rw [h1]; simp only [List.append_assoc]⟩, ?_⟩
    intro c d he
    obtain ⟨e, h3, h4⟩ := occurrence_right hx he
    exact h2 e d h4

end First

/-! ### Taking letters off both ends -/

/-- A text that neither begins nor ends with a letter of `f`. -/
def Tight (f : α → Bool) (t : List α) : Prop :=
  (∀ x u, t = x :: u → f x = false) ∧ ∀ x u, t = u ++ [x] → f x = false

/-- Without the letters of `f` at both ends. -/
def strip (f : α → Bool) (t : List α) : List α := (t.dropWhile f).rdropWhile f

section Strip

variable {f g : α → Bool} {l t s : List α}

theorem strip_unique (hl : ∀ x ∈ l, f x) (hr : ∀ x ∈ r, f x) (hs : Tight f s) : strip f (l ++ s ++ r) = s := by
  unfold strip
  rw [List.append_assoc, List.dropWhile_append_of_pos hl]
  cases s with
  | nil =>
    rw [List.nil_append, List.dropWhile_eq_nil_iff.mpr hr]
    rfl
  | cons x u =>
    have hx : ¬f x = true := by rw [hs.1 x u rfl]; exact Bool.false_ne_true
    rw [List.cons_append, List.dropWhile_cons_of_neg hx, List.rdropWhile, ← List.cons_append, List.reverse_append,
      List.dropWhile_append_of_pos (fun y hy => hr y (List.mem_reverse.mp hy))]
    rcases List.eq_nil_or_concat (x :: u) with h | ⟨v, y, h⟩
    · cases h
    · rw [h]
      have hy : ¬f y = true := by rw [hs.2 y v (by simpa using h)]; exact Bool.false_ne_true
      simp [hy]

theorem strip_spec (f : α → Bool) (t : List α) : ∃ l r, t = l ++ strip f t ++ r ∧ (∀ x ∈ l, f x) ∧
    (∀ x ∈ r, f x) ∧ Tight f (strip f t) := by
  refine ⟨t.takeWhile f, (t.dropWhile f).rtakeWhile f, ?_, ?_, ?_, ?_, ?_⟩
  · unfold strip
    rw [List.append_assoc, List.rdropWhile_append_rtakeWhile, List.takeWhile_append_dropWhile]
  · exact fun x hx => List.mem_takeWhile_imp hx
  · exact fun x hx => List.mem_rtakeWhile_imp hx
  · intro x u h
    obtain ⟨v, hv⟩ := List.rdropWhile_prefix f (l := t.dropWhile f)
    rw [show (t.dropWhile f).rdropWhile f = x :: u from h] at hv
    have hd := List.head?_dropWhile_not f t
    rw [← hv, List.cons_append, List.head?_cons] at hd
    exact hd
  · intro x u h
    have hne : (t.dropWhile f).rdropWhile f ≠ [] := by
      rw [show (t.dropWhile f).rdropWhile f = u ++ [x] from h]
      simp
    have hlast := List.rdropWhile_last_not f (t.dropWhile f) hne
    rw [Bool.not_eq_true] at hlast
    rw [← hlast]
    congr 1
    have : (t.dropWhile f).rdropWhile f = u ++ [x] := h
    simp [this]

theorem tight_strip (f : α → Bool) (t : List α) : Tight f (strip f t) := by
  obtain ⟨_, _, _, _, _, h⟩ := strip_spec f t
  exact h

theorem strip_of_tight (h : Tight f t) : strip f t = t := by
  have := strip_unique (l := []) (r := []) (fun _ hx => nomatch hx) (fun _ hx => nomatch hx) h
  simpa using this

theorem strip_strip (f : α → Bool) (t : List α) : strip f (strip f t) = strip f t := strip_of_tight (tight_strip f t)

theorem strip_isInfix (f : α → Bool) (t : List α) : strip f t <:+: t := by
  obtain ⟨l, r, h, _⟩ := strip_spec f t
  exact ⟨l, r, h.symm⟩

/-- Letters of `f` around a text make no difference. -/
theorem strip_append (hl : ∀ x ∈ l, f x) (hr : ∀ x ∈ r, f x) : strip f (l ++ t ++ r) = strip f t := by
  obtain ⟨l', r', h, h1, h2, h3⟩ := strip_spec f t
  have he : l ++ t ++ r = (l ++ l') ++ strip f t ++ (r' ++ r) := by
    conv_lhs => rw [h]
    simp only [List.append_assoc]
  rw [he]
  refine strip_unique ?_ ?_ h3
  · intro x hx
    exact (List.mem_append.mp hx).elim (hl x) (h1 x)
  · intro x hx
    exact (List.mem_append.mp hx).elim (h2 x) (hr x)

/-- Taking some of the letters off first makes no difference. -/
theorem strip_dropWhile (hg : ∀ x, g x → f x) : strip f (t.dropWhile g) = strip f t := by
  have h := strip_append (f := f) (l := t.takeWhile g) (t := t.dropWhile g) (r := [])
    (fun x hx => hg x (List.mem_takeWhile_imp hx)) (fun _ hx => nomatch hx)
  rw [List.append_nil, List.takeWhile_append_dropWhile] at h
  exact h.symm

end Strip

end Search
