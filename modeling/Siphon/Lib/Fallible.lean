/-
# Computations that may fail

Taking a fallible computation that ended well apart, step by step.
-/
import Mathlib.Data.List.Forall2

namespace Fallible

/-- The value of an optional step, or the error for its absence. -/
def orElse {ε α : Type*} (e : ε) : Option α → Except ε α
  | some a => .ok a
  | none => .error e

universe u

variable {ε ε' : Type*} {α β : Type u}

theorem ok_bind (a : α) (f : α → Except ε β) : (Except.ok a >>= f) = f a := rfl

theorem error_bind (e : ε) (f : α → Except ε β) : (Except.error e >>= f) = .error e := rfl

theorem bind_eq_ok {x : Except ε α} {f : α → Except ε β} {b : β} (h : (x >>= f) = .ok b) :
    ∃ a, x = .ok a ∧ f a = .ok b := by
  cases x with
  | error e => cases h
  | ok a => exact ⟨a, rfl, h⟩

theorem orElse_eq_ok {e : ε} {o : Option α} {a : α} (h : orElse e o = .ok a) : o = some a := by
  cases o with
  | none => cases h
  | some b => exact congrArg some (Except.ok.inj h)

theorem bind_eq_ok_iff {x : Except ε α} {f : α → Except ε β} {b : β} :
    (x >>= f) = .ok b ↔ ∃ a, x = .ok a ∧ f a = .ok b := by
  refine ⟨bind_eq_ok, ?_⟩
  rintro ⟨a, rfl, h⟩
  exact h

/-- A step fails, or the next one does on what it gave. -/
theorem bind_eq_error_iff {x : Except ε α} {f : α → Except ε β} {e : ε} :
    (x >>= f) = .error e ↔ x = .error e ∨ ∃ a, x = .ok a ∧ f a = .error e := by
  cases x with
  | error e' =>
    rw [error_bind]
    refine ⟨fun h => .inl (congrArg _ (Except.error.inj h)), ?_⟩
    rintro (h | ⟨a, ha, -⟩)
    · exact congrArg _ (Except.error.inj h)
    · cases ha
  | ok a =>
    rw [ok_bind]
    refine ⟨fun h => .inr ⟨a, rfl, h⟩, ?_⟩
    rintro (h | ⟨a', ha, h⟩)
    · cases h
    · rwa [Except.ok.inj ha]

/-- An error that no step fails with. -/
theorem bind_ne_error {x : Except ε α} {f : α → Except ε β} {e : ε} (hx : x ≠ .error e)
    (hf : ∀ a, x = .ok a → f a ≠ .error e) : (x >>= f) ≠ .error e := by
  intro h
  rcases bind_eq_error_iff.mp h with h | ⟨a, ha, h⟩
  · exact hx h
  · exact hf a ha h

theorem orElse_eq_ok_iff {e : ε} {o : Option α} {a : α} : orElse e o = .ok a ↔ o = some a := by
  refine ⟨orElse_eq_ok, ?_⟩
  rintro rfl
  rfl

theorem orElse_eq_error_iff {e e' : ε} {o : Option α} : orElse e o = .error e' ↔ o = none ∧ e = e' := by
  cases o with
  | none => exact ⟨fun h => ⟨rfl, Except.error.inj h⟩, fun h => congrArg _ h.2⟩
  | some a => exact ⟨fun h => (nomatch h), fun h => (nomatch h.1)⟩

theorem mapError_eq_ok {x : Except ε α} {f : ε → ε'} {a : α} (h : x.mapError f = .ok a) : x = .ok a := by
  cases x with
  | error e => cases h
  | ok b => exact congrArg Except.ok (Except.ok.inj h)

theorem mapError_eq_error_iff {x : Except ε α} {f : ε → ε'} {e : ε'} :
    x.mapError f = .error e ↔ ∃ e', x = .error e' ∧ f e' = e := by
  cases x with
  | error e' =>
    refine ⟨fun h => ⟨e', rfl, Except.error.inj h⟩, ?_⟩
    rintro ⟨e1, h, rfl⟩
    obtain rfl := Except.error.inj h
    rfl
  | ok v =>
    constructor
    · intro h
      cases h
    · rintro ⟨e1, h, -⟩
      cases h

theorem map_eq_ok {x : Except ε α} {f : α → β} {b : β} (h : x.map f = .ok b) : ∃ a, x = .ok a ∧ f a = b := by
  cases x with
  | error e => cases h
  | ok a => exact ⟨a, rfl, Except.ok.inj h⟩

theorem toOption_eq_some {x : Except ε α} {a : α} (h : x.toOption = some a) : x = .ok a := by
  cases x with
  | error e => cases h
  | ok b => exact congrArg Except.ok (Option.some.inj h)

/-- A step that ends well, before others that do. -/
theorem exists_bind {x : Except ε α} {f : α → Except ε β} (hx : ∃ a, x = .ok a) (hf : ∀ a, ∃ b, f a = .ok b) :
    ∃ b, (x >>= f) = .ok b := by
  obtain ⟨a, rfl⟩ := hx
  exact hf a

/-- A step for each element of a list, all of which ended well. -/
theorem forall₂_of_mapM {f : α → Except ε β} {l : List α} : ∀ {r : List β}, l.mapM f = .ok r →
    List.Forall₂ (fun a b => f a = .ok b) l r := by
  induction l with
  | nil =>
    intro r h
    obtain rfl := Except.ok.inj h
    exact .nil
  | cons a l ih =>
    intro r h
    rw [List.mapM_cons] at h
    obtain ⟨b, hb, h1⟩ := bind_eq_ok h
    obtain ⟨bs, hbs, h2⟩ := bind_eq_ok h1
    obtain rfl := Except.ok.inj h2
    exact .cons hb (ih hbs)

/-- A step for each number below a bound. -/
theorem mapM_range_eq_ok {δ : Type} {f : ℕ → Except ε δ} {n : ℕ} {r : List δ} (h : (List.range n).mapM f = .ok r) :
    r.length = n ∧ ∀ i (hi : i < r.length), f i = .ok r[i] := by
  have hall := forall₂_of_mapM h
  have hlen : r.length = n := by rw [← hall.length_eq, List.length_range]
  refine ⟨hlen, fun i hi => ?_⟩
  simpa using hall.get (by rwa [List.length_range, ← hlen]) hi

/-- Steps that all end well. -/
theorem exists_mapM {f : α → Except ε β} : ∀ {l : List α}, (∀ a ∈ l, ∃ b, f a = .ok b) → ∃ r, l.mapM f = .ok r
  | [], _ => ⟨[], rfl⟩
  | a :: l, h => by
    obtain ⟨⟨b, hb⟩, hl⟩ := List.forall_mem_cons.mp h
    obtain ⟨bs, hbs⟩ := exists_mapM hl
    exact ⟨b :: bs, by rw [List.mapM_cons, hb, ok_bind, hbs, ok_bind]; rfl⟩

/-- What a loop starts with and every step keeps holds behind it. -/
theorem foldlM_ok {f : β → α → Except ε β} {P : β → Prop} (hstep : ∀ b a b', P b → f b a = .ok b' → P b') :
    ∀ {l : List α} {b b' : β}, P b → l.foldlM f b = .ok b' → P b'
  | [], b, b', hb, h => by
    obtain rfl := Except.ok.inj h
    exact hb
  | a :: l, b, b', hb, h => by
    rw [List.foldlM_cons] at h
    obtain ⟨b1, h1, h2⟩ := bind_eq_ok h
    exact foldlM_ok hstep (hstep b a b1 hb h1) h2

/-! ### Optional steps -/

section Optional

variable {σ β γ : Type}

theorem mapM_eq_map {body : σ → Option β} {f : σ → β} : ∀ (l : List σ), (∀ t ∈ l, body t = some (f t)) →
    l.mapM body = some (l.map f)
  | [], _ => rfl
  | t :: l, h => by
    obtain ⟨ht, hl⟩ := List.forall_mem_cons.mp h
    rw [List.mapM_cons, ht, mapM_eq_map l hl]
    rfl

theorem mapM_congr {f g : σ → Option β} : ∀ {l : List σ}, (∀ t ∈ l, f t = g t) → l.mapM f = l.mapM g
  | [], _ => rfl
  | t :: l, h => by
    obtain ⟨ht, hl⟩ := List.forall_mem_cons.mp h
    rw [List.mapM_cons, List.mapM_cons, ht, mapM_congr hl]

/-- A pass over the places of a list. -/
theorem mapM_range_eq_map {g : γ → β} : ∀ (l : List γ) {f : ℕ → Option β},
    (∀ i a, l[i]? = some a → f i = some (g a)) → (List.range l.length).mapM f = some (l.map g)
  | [], _, _ => rfl
  | a :: l, f, h => by
    have ih := mapM_range_eq_map l (f := fun i => f (i + 1)) fun i b hb => h (i + 1) b (by simpa using hb)
    rw [List.length_cons, List.range_succ_eq_map, List.mapM_cons, h 0 a rfl, List.mapM_map]
    simp only [Function.comp_def, Nat.succ_eq_add_one, ih]
    rfl

theorem mapM_eq_none {body : σ → Option β} : ∀ (l : List σ) {t : σ}, t ∈ l → body t = none → l.mapM body = none
  | a :: l, t, ht, hb => by
    rw [List.mapM_cons]
    rcases List.mem_cons.mp ht with rfl | ht
    · rw [hb]; rfl
    · rw [mapM_eq_none l ht hb]
      cases body a <;> rfl

theorem length_mapM {body : σ → Option β} : ∀ {l : List σ} {r : List β}, l.mapM body = some r → r.length = l.length
  | [], r, h => by
    obtain rfl := Option.some.inj h
    rfl
  | t :: l, r, h => by
    rw [List.mapM_cons] at h
    obtain ⟨b, -, h⟩ := Option.bind_eq_some_iff.mp h
    obtain ⟨bs, hbs, h⟩ := Option.bind_eq_some_iff.mp h
    obtain rfl := Option.some.inj h
    rw [List.length_cons, List.length_cons, length_mapM hbs]

theorem exists_of_mapM {body : σ → Option β} : ∀ {l : List σ} {r : List β}, l.mapM body = some r →
    ∀ b ∈ r, ∃ t ∈ l, body t = some b
  | [], r, h, b, hb => by
    obtain rfl := Option.some.inj h
    exact absurd hb List.not_mem_nil
  | t :: l, r, h, b, hb => by
    rw [List.mapM_cons] at h
    obtain ⟨b', hb', h⟩ := Option.bind_eq_some_iff.mp h
    obtain ⟨bs, hbs, h⟩ := Option.bind_eq_some_iff.mp h
    obtain rfl := Option.some.inj h
    rcases List.mem_cons.mp hb with rfl | hb
    · exact ⟨t, List.mem_cons_self, hb'⟩
    · obtain ⟨t', ht', h'⟩ := exists_of_mapM hbs b hb
      exact ⟨t', List.mem_cons_of_mem t ht', h'⟩

/-- A pass over lists in a row. -/
theorem mapM_flatten {body : σ → Option β} : ∀ ls : List (List σ),
    ls.flatten.mapM body = (ls.mapM (List.mapM body)).map List.flatten
  | [] => rfl
  | l :: ls => by
    rw [List.flatten_cons, List.mapM_append, List.mapM_cons, mapM_flatten ls]
    cases l.mapM body with
    | none => rfl
    | some bs => cases ls.mapM (List.mapM body) <;> rfl

theorem isSome_mapM {body : σ → Option β} : ∀ {l : List σ}, (∀ t ∈ l, (body t).isSome) → (l.mapM body).isSome
  | [], _ => rfl
  | t :: l, h => by
    obtain ⟨ht, hl⟩ := List.forall_mem_cons.mp h
    obtain ⟨b, hb⟩ := Option.isSome_iff_exists.mp ht
    obtain ⟨bs, hbs⟩ := Option.isSome_iff_exists.mp (isSome_mapM hl)
    rw [List.mapM_cons, hb, hbs]
    rfl

end Optional

end Fallible
