/-
# Tries and longest-match segmentation

A trie whose nodes may carry a value, with insertion and the walk that
follows a text as far as it goes and remembers the last value it passed.
What is stored after inserting a list of entries is said by two functions of
the words alone: the values (`valueAt_ofEntries`) and the paths
(`isPath_ofEntries`); `walk_spec` says where a walk stops and what it
remembers in these terms.

`Segmentation` is the abstract counterpart: the text cut from the left, each
part the longest word of a vocabulary that begins what is left.
`Tight` says that at each cut no start of a word reaches further into the text
than the part taken there.
-/
import Mathlib.Data.List.Basic
import Mathlib.Data.List.Nodup

variable {α ι : Type*}

/-- A node: its value, if it ends a word, and its children by letter. -/
inductive Trie (α ι : Type*) where
  | node (value : Option ι) (next : α → Option (Trie α ι))

namespace Trie

/-- The node of an empty dictionary. -/
def empty : Trie α ι := node none fun _ => none

def value : Trie α ι → Option ι
  | node v _ => v

def next : Trie α ι → α → Option (Trie α ι)
  | node _ n => n

/-- The node a word leads to. -/
def at? (t : Trie α ι) : List α → Option (Trie α ι)
  | [] => some t
  | a :: w => (t.next a).bind fun n => n.at? w

/-- The value stored for a word. -/
def valueAt (t : Trie α ι) (w : List α) : Option ι := (t.at? w).bind value

/-- The walk along a text from a node: the last value passed (`best` before
the first one) and how many letters it went. -/
def walk (t : Trie α ι) (best : Option ι) : List α → Option ι × ℕ
  | [] => (best, 0)
  | a :: w =>
    match t.next a with
    | none => (best, 0)
    | some n => ((n.walk (n.value.or best) w).1, (n.walk (n.value.or best) w).2 + 1)

section Insert

variable [DecidableEq α]

/-- Stores a value for a word, with the missing nodes on the way. -/
def insert : List α → ι → Trie α ι → Trie α ι
  | [], i, t => node (some i) t.next
  | a :: w, i, t =>
    node t.value fun b => if b = a then some (insert w i ((t.next a).getD empty)) else t.next b

/-- The trie after inserting the entries in order. -/
def ofEntries (es : List (ι × List α)) : Trie α ι := es.foldl (fun t e => insert e.2 e.1 t) empty

end Insert

@[simp] theorem at?_nil (t : Trie α ι) : t.at? [] = some t := by cases t; rfl

theorem at?_cons (t : Trie α ι) (a : α) (w : List α) :
    t.at? (a :: w) = (t.next a).bind fun n => n.at? w := by cases t; rfl

@[simp] theorem at?_empty_cons (a : α) (w : List α) : (empty : Trie α ι).at? (a :: w) = none := rfl

theorem valueAt_nil (t : Trie α ι) : t.valueAt [] = t.value := by simp [valueAt]

theorem valueAt_cons (t : Trie α ι) (a : α) (w : List α) :
    t.valueAt (a :: w) = (t.next a).bind fun n => n.valueAt w := by
  unfold valueAt
  rw [at?_cons]
  cases t.next a <;> rfl

section Stored

variable [DecidableEq α]

@[simp] theorem value_insert_nil (i : ι) (t : Trie α ι) : (insert [] i t).value = some i := rfl

@[simp] theorem next_insert_nil (i : ι) (t : Trie α ι) : (insert [] i t).next = t.next := rfl

@[simp] theorem value_insert_cons (a : α) (w : List α) (i : ι) (t : Trie α ι) :
    (insert (a :: w) i t).value = t.value := rfl

@[simp] theorem next_insert_self (a : α) (w : List α) (i : ι) (t : Trie α ι) :
    (insert (a :: w) i t).next a = some (insert w i ((t.next a).getD empty)) := if_pos rfl

theorem next_insert_ne {a b : α} (h : b ≠ a) (w : List α) (i : ι) (t : Trie α ι) :
    (insert (a :: w) i t).next b = t.next b := if_neg h

theorem valueAt_insert : ∀ (w : List α) (i : ι) (t : Trie α ι) (v : List α),
    (insert w i t).valueAt v = if v = w then some i else t.valueAt v
  | [], i, t, [] => by simp [valueAt_nil]
  | [], i, t, b :: v => by simp [valueAt_cons]
  | a :: w, i, t, [] => by simp [valueAt_nil]
  | a :: w, i, t, b :: v => by
    rw [valueAt_cons, valueAt_cons]
    by_cases hb : b = a
    · subst hb
      rw [next_insert_self, Option.bind_some, valueAt_insert w i _ v]
      cases t.next b with
      | none => cases v <;> simp [valueAt, empty, value, at?_cons, next]
      | some n => simp
    · rw [next_insert_ne hb]
      simp [hb]

theorem isPath_insert : ∀ (w : List α) (i : ι) (t : Trie α ι) (v : List α),
    ((insert w i t).at? v).isSome ↔ v <+: w ∨ (t.at? v).isSome
  | w, i, t, [] => by simp
  | [], i, t, b :: v => by simp [at?_cons]
  | a :: w, i, t, b :: v => by
    rw [at?_cons, at?_cons, List.cons_prefix_cons]
    by_cases hb : b = a
    · subst hb
      rw [next_insert_self, Option.bind_some, isPath_insert w i _ v]
      cases t.next b with
      | none => cases v <;> simp
      | some n => simp
    · rw [next_insert_ne hb]
      simp [hb]

/-- The value after inserting the entries is the one given last. -/
theorem valueAt_foldl (v : List α) : ∀ (es : List (ι × List α)) (t : Trie α ι),
    (es.foldl (fun t e => insert e.2 e.1 t) t).valueAt v =
      ((es.reverse.find? fun e => e.2 = v).map Prod.fst).or (t.valueAt v)
  | [], t => rfl
  | e :: es, t => by
    rw [List.foldl_cons, valueAt_foldl v es, valueAt_insert, List.reverse_cons, List.find?_append]
    cases hf : es.reverse.find? fun e => e.2 = v with
    | some f => rfl
    | none =>
      by_cases he : e.2 = v
      · simp [he]
      · simp [he, Ne.symm he]

theorem valueAt_ofEntries (es : List (ι × List α)) (v : List α) :
    (ofEntries es).valueAt v = (es.reverse.find? fun e => e.2 = v).map Prod.fst := by
  unfold ofEntries
  rw [valueAt_foldl]
  cases v <;> simp [empty, valueAt, value, at?_cons, next]

theorem isPath_foldl (v : List α) : ∀ (es : List (ι × List α)) (t : Trie α ι),
    ((es.foldl (fun t e => insert e.2 e.1 t) t).at? v).isSome ↔
      (∃ e ∈ es, v <+: e.2) ∨ (t.at? v).isSome
  | [], t => by simp
  | e :: es, t => by
    rw [List.foldl_cons, isPath_foldl v es, isPath_insert]
    simp only [List.mem_cons, exists_eq_or_imp]
    rw [or_left_comm, or_assoc]

/-- The paths are the starts of the words. -/
theorem isPath_ofEntries (es : List (ι × List α)) (v : List α) :
    ((ofEntries es).at? v).isSome ↔ v = [] ∨ ∃ e ∈ es, v <+: e.2 := by
  unfold ofEntries
  rw [isPath_foldl]
  cases v with
  | nil => simp
  | cons b v => simp

end Stored

/-! ### The walk -/

theorem walk_of_none {t : Trie α ι} {a : α} (h : t.next a = none) (best : Option ι) (w : List α) :
    t.walk best (a :: w) = (best, 0) := by
  cases t with
  | node v n =>
    show (match n a with | none => _ | some n => _) = _
    rw [show n a = none from h]

theorem walk_of_some {t n : Trie α ι} {a : α} (h : t.next a = some n) (best : Option ι) (w : List α) :
    t.walk best (a :: w) =
      ((n.walk (n.value.or best) w).1, (n.walk (n.value.or best) w).2 + 1) := by
  cases t with
  | node v m =>
    show (match m a with | none => _ | some n => _) = _
    rw [show m a = some n from h]

@[simp] theorem walk_nil (t : Trie α ι) (best : Option ι) : t.walk best [] = (best, 0) := by
  cases t; rfl

/-- The walk stops at the end of the longest path the text begins with. -/
theorem walk_length : ∀ (w : List α) (t : Trie α ι) (best : Option ι),
    (t.walk best w).2 ≤ w.length ∧ (t.at? (w.take (t.walk best w).2)).isSome ∧
      ∀ v, v <+: w → (t.at? v).isSome → v.length ≤ (t.walk best w).2
  | [], t, best => by
    refine ⟨by simp, by simp, fun v hv _ => ?_⟩
    simp [List.prefix_nil.mp hv]
  | a :: w, t, best => by
    cases hn : t.next a with
    | none =>
      rw [walk_of_none hn]
      refine ⟨by simp, by simp, fun v hv hp => ?_⟩
      cases v with
      | nil => simp
      | cons b v =>
        rw [List.cons_prefix_cons] at hv
        rw [at?_cons, hv.1, hn] at hp
        cases hp
    | some n =>
      rw [walk_of_some hn]
      obtain ⟨h1, h2, h3⟩ := walk_length w n (n.value.or best)
      refine ⟨by simpa using h1, ?_, fun v hv hp => ?_⟩
      · simpa [at?_cons, hn] using h2
      · cases v with
        | nil => simp
        | cons b v =>
          rw [List.cons_prefix_cons] at hv
          rw [at?_cons, hv.1, hn] at hp
          have := h3 v hv.2 hp
          simpa using this

/-- What the walk remembers is the value of the longest word, of at least one
letter, the text begins with. -/
theorem walk_best : ∀ (w : List α) (t : Trie α ι) (best : Option ι),
    (∃ v i, v ≠ [] ∧ v <+: w ∧ t.valueAt v = some i ∧ (t.walk best w).1 = some i ∧
      ∀ u, u <+: w → (t.valueAt u).isSome → u.length ≤ v.length) ∨
    ((t.walk best w).1 = best ∧ ∀ u, u ≠ [] → u <+: w → t.valueAt u = none)
  | [], t, best => by
    refine .inr ⟨by simp, fun u hu hp => absurd (List.prefix_nil.mp hp) hu⟩
  | a :: w, t, best => by
    cases hn : t.next a with
    | none =>
      rw [walk_of_none hn]
      refine .inr ⟨rfl, fun u hu hp => ?_⟩
      cases u with
      | nil => exact absurd rfl hu
      | cons b u =>
        rw [List.cons_prefix_cons] at hp
        rw [valueAt_cons, hp.1, hn]
        rfl
    | some n =>
      rw [walk_of_some hn]
      rcases walk_best w n (n.value.or best) with ⟨v, i, hv, hp, hi, hw, hmax⟩ | ⟨hw, hnone⟩
      · refine .inl ⟨a :: v, i, by simp, by simpa using hp, ?_, hw, fun u hu hs => ?_⟩
        · rw [valueAt_cons, hn]
          exact hi
        · cases u with
          | nil => simp
          | cons b u =>
            rw [List.cons_prefix_cons] at hu
            rw [valueAt_cons, hu.1, hn] at hs
            have := hmax u hu.2 hs
            simpa using this
      · cases hval : n.value with
        | none =>
          rw [hval, Option.none_or] at hw
          refine .inr ⟨hw, fun u hu hp => ?_⟩
          cases u with
          | nil => exact absurd rfl hu
          | cons b u =>
            rw [List.cons_prefix_cons] at hp
            rw [valueAt_cons, hp.1, hn, Option.bind_some]
            by_cases hu' : u = []
            · rw [hu', valueAt_nil, hval]
            · exact hnone u hu' hp.2
        | some i =>
          -- the word is the one letter: nothing below this node has a value
          refine .inl ⟨[a], i, by simp, by simp, ?_, ?_, fun u hu hs => ?_⟩
          · rw [valueAt_cons, hn, Option.bind_some, valueAt_nil, hval]
          · rw [hval, Option.some_or] at hw
            exact hw
          · cases u with
            | nil => simp
            | cons b u =>
              rw [List.cons_prefix_cons] at hu
              rw [valueAt_cons, hu.1, hn, Option.bind_some] at hs
              by_cases hu' : u = []
              · simp [hu']
              · rw [hnone u hu' hu.2] at hs
                cases hs

end Trie

/-! ### Longest-match segmentation -/

namespace Segment

variable {V : List (List α)}

/-- The longest word of the vocabulary that begins the text. -/
structure IsLongest (V : List (List α)) (w text : List α) : Prop where
  mem : w ∈ V
  isPrefix : w <+: text
  longest : ∀ u ∈ V, u <+: text → u.length ≤ w.length

/-- The text cut from the left, each part the longest word that begins what
is left. -/
inductive Segmentation (V : List (List α)) : List (List α) → List α → Prop
  | nil : Segmentation V [] []
  | cons {w rest : List α} {ws : List (List α)} :
      IsLongest V w (w ++ rest) → Segmentation V ws rest → Segmentation V (w :: ws) (w ++ rest)

/-- At every cut, no start of a word reaches further into the text than the
part taken there: the longest run of letters that begins a word is a word. -/
def Tight (V : List (List α)) (text : List α) : Prop :=
  ∀ us w ws, Segmentation V (us ++ w :: ws) text →
    ∀ u ∈ V, ∀ p, p <+: u → p <+: w ++ ws.flatten → p.length ≤ w.length

theorem IsLongest.unique {v w text : List α} (hv : IsLongest V v text) (hw : IsLongest V w text) :
    v = w :=
  List.prefix_iff_eq_take.mp hv.isPrefix |>.trans <| by
    rw [List.prefix_iff_eq_take.mp hw.isPrefix,
      Nat.le_antisymm (hw.longest v hv.mem hv.isPrefix) (hv.longest w hw.mem hw.isPrefix)]

/-- The parts of a segmentation are the text. -/
theorem Segmentation.flatten_eq {ws : List (List α)} {text : List α} (h : Segmentation V ws text) :
    ws.flatten = text := by
  induction h with
  | nil => rfl
  | cons _ _ ih => rw [List.flatten_cons, ih]

theorem Segmentation.unique (hV : ∀ w ∈ V, w ≠ []) {vs ws : List (List α)} {text : List α}
    (hv : Segmentation V vs text) (hw : Segmentation V ws text) : vs = ws := by
  induction hv generalizing ws with
  | nil =>
    generalize ht : ([] : List α) = text at hw
    cases hw with
    | nil => rfl
    | cons hl _ => exact absurd (List.append_eq_nil_iff.mp ht.symm).1 (hV _ hl.mem)
  | @cons v rest vs hl hs ih =>
    generalize ht : v ++ rest = text at hw
    cases hw with
    | nil => exact absurd (List.append_eq_nil_iff.mp ht).1 (hV _ hl.mem)
    | @cons w rest' ws hl' hs' =>
      have he : v = w := (ht ▸ hl).unique hl'
      subst he
      rw [List.append_cancel_left ht] at ih
      rw [ih hs']

theorem tight_nil (hV : ∀ w ∈ V, w ≠ []) : Tight V [] := by
  intro us w ws h
  have := h.unique hV .nil
  simp at this

/-- Tightness, cut by cut. -/
theorem tight_cons (hV : ∀ w ∈ V, w ≠ []) {w rest : List α} {ws : List (List α)}
    (hl : IsLongest V w (w ++ rest)) (hs : Segmentation V ws rest) :
    Tight V (w ++ rest) ↔
      (∀ u ∈ V, ∀ p, p <+: u → p <+: w ++ rest → p.length ≤ w.length) ∧ Tight V rest := by
  constructor
  · intro h
    refine ⟨fun u hu p hp hp' => ?_, fun us v vs hv => ?_⟩
    · exact h [] w ws (.cons hl hs) u hu p hp (hs.flatten_eq.symm ▸ hp')
    · exact h (w :: us) v vs (.cons hl hv)
  · rintro ⟨h1, h2⟩ us v vs hv
    have hu := hv.unique hV (.cons hl hs)
    cases us with
    | nil =>
      obtain ⟨rfl, rfl⟩ : v = w ∧ vs = ws := by simpa using hu
      rw [hs.flatten_eq]
      exact h1
    | cons u us =>
      obtain ⟨rfl, rfl⟩ : u = w ∧ us ++ v :: vs = ws := by simpa using hu
      exact h2 us v vs hs

end Segment
