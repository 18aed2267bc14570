/-
# Reading back what was written

`parse (dumps v)` is `v` again for a value `v` that `parse` can return, if its
floats are finite. An infinite one is written as `Infinity`, which is no
number, and then the written text is refused. `parse` returns an infinite
float for a literal beyond the range of the format, so the round trip of a
text holds exactly if it has no such literal (`roundTrip_iff_finite`).
-/
import Siphon.Pyjson.Written

namespace Siphon
namespace Pyjson

/-! ### The leaves of a value -/

mutual

/-- The values in a value that are no array and no object. -/
def Value.leaves : Value → List Value
  | .array vs => elementLeaves vs
  | .object kvs => memberLeaves kvs
  | .null => [.null]
  | .bool b => [.bool b]
  | .int i => [.int i]
  | .float x => [.float x]
  | .str s => [.str s]

def elementLeaves : List Value → List Value
  | [] => []
  | v :: vs => v.leaves ++ elementLeaves vs

def memberLeaves : List (List Char × Value) → List Value
  | [] => []
  | (_, v) :: kvs => v.leaves ++ memberLeaves kvs

end

/-- The leaves of what a phrase is for. -/
def Item.leaves : Item → List Value
  | .value v => v.leaves
  | .elements vs => elementLeaves vs
  | .member _ v => v.leaves
  | .members kvs => memberLeaves kvs

/-- What a dialect lets a leaf be: an integer of 128 bits, a float that is
not a NaN and, where the dialect says so, finite. -/
def LeafOk (D : Dialect) : Value → Prop
  | .int i => -2 ^ 127 ≤ i ∧ i < 2 ^ 127
  | .float x => x ≠ .nan ∧ (D.infinite ∨ x.isFinite)
  | _ => True

theorem nearest_ne_nan (neg : Bool) (q : ℚ) : Binary64.nearest neg q ≠ .nan := by
  unfold Binary64.nearest
  split
  · exact Binary64.noConfusion
  · exact Binary64.noConfusion

theorem toInt_range {t : NumberText} {i : ℤ} (h : t.toInt = some i) : -2 ^ 127 ≤ i ∧ i < 2 ^ 127 := by
  unfold NumberText.toInt at h
  simp only at h
  generalize (if t.neg then -(Nat.ofDigitChars 10 t.int 0 : ℤ) else Nat.ofDigitChars 10 t.int 0) = w at h
  by_cases hr : t.int = [] ∨ w < -2 ^ 127 ∨ 2 ^ 127 ≤ w
  · rw [if_pos hr] at h
    cases h
  · rw [if_neg hr] at h
    obtain rfl := Option.some.inj h
    omega

theorem NumberText.Denotes.leafOk {D : Dialect} {t : NumberText} {v : Value} (h : t.Denotes D v) :
    ∀ u ∈ v.leaves, LeafOk D u := by
  intro u hu
  cases h with
  | int _ _ h3 =>
    obtain rfl := List.mem_singleton.mp hu
    exact toInt_range h3
  | float _ h2 h3 =>
    obtain rfl := List.mem_singleton.mp hu
    refine ⟨?_, h3⟩
    unfold NumberText.toFloat at h2
    simp only at h2
    split at h2
    · cases h2
    · rw [← Option.some.inj h2]
      exact nearest_ne_nan _ _

/-- The leaves of what is read are as the dialect lets them be. -/
theorem Reads.leafOk {D : Dialect} {i : Item} {t r : List Char} (h : Reads D i t r) :
    ∀ u ∈ i.leaves, LeafOk D u := by
  induction h with
  | null r =>
    intro u hu
    rw [List.mem_singleton.mp hu]
    trivial
  | true r =>
    intro u hu
    rw [List.mem_singleton.mp hu]
    trivial
  | false r =>
    intro u hu
    rw [List.mem_singleton.mp hu]
    trivial
  | number r _ h2 => exact h2.leafOk
  | string _ =>
    intro u hu
    rw [List.mem_singleton.mp hu]
    trivial
  | arrayEmpty _ =>
    intro u hu
    cases hu
  | array _ ih => exact ih
  | objectEmpty _ =>
    intro u hu
    cases hu
  | object _ ih => exact ih
  | lastElement _ _ _ ih => exact fun u hu => ih u (by simpa [Item.leaves, elementLeaves] using hu)
  | element _ _ _ _ ih ih' => exact fun u hu => (List.mem_append.mp hu).elim (ih u) (ih' u)
  | keyValue _ _ _ _ _ ih => exact ih
  | lastMember _ _ ih => exact fun u hu => ih u (by simpa [Item.leaves, memberLeaves] using hu)
  | memberList _ _ _ ih ih' => exact fun u hu => (List.mem_append.mp hu).elim (ih u) (ih' u)

/-- All floats are finite. -/
def AllFinite (us : List Value) : Prop := ∀ x, .float x ∈ us → x.isFinite

theorem AllFinite.append {us vs : List Value} : AllFinite (us ++ vs) ↔ AllFinite us ∧ AllFinite vs := by
  unfold AllFinite
  constructor
  · exact fun h => ⟨fun x hx => h x (List.mem_append_left _ hx), fun x hx => h x (List.mem_append_right _ hx)⟩
  · exact fun h x hx => (List.mem_append.mp hx).elim (h.1 x) (h.2 x)

/-- A phrase for finite floats is one of the narrower dialect. -/
theorem Reads.toFinite {i : Item} {t r : List Char} (h : Reads lax i t r) (hf : AllFinite i.leaves) :
    Reads laxFinite i t r := by
  have hchars : ∀ {s t r : List Char}, Chars lax s t r → Chars laxFinite s t r := by
    intro s t r hc
    induction hc with
    | close r => exact .close r
    | raw h1 h2 h3 _ ih => exact .raw h1 h2 h3 ih
    | escape h1 _ ih => exact .escape h1 ih
    | unicode h1 _ ih => exact .unicode h1 ih
    | pair h1 h2 h3 h4 h5 h6 h7 _ ih => exact .pair h1 h2 h3 h4 h5 h6 h7 ih
    | lone h1 => cases h1
  induction h with
  | null r => exact .null r
  | true r => exact .true r
  | false r => exact .false r
  | number r h1 h2 =>
    refine .number r { h1 with } ?_
    cases h2 with
    | int h1 h2 h3 => exact .int h1 h2 h3
    | float h1 h2 _ => exact .float h1 h2 (.inr (hf _ (List.mem_singleton_self _)))
  | string h1 => exact .string (hchars h1)
  | arrayEmpty h1 => exact .arrayEmpty h1
  | array _ ih => exact .array (ih hf)
  | objectEmpty h1 => exact .objectEmpty h1
  | object _ ih => exact .object (ih hf)
  | lastElement h1 _ h3 ih => exact .lastElement h1 (ih (AllFinite.append.mp hf).1) h3
  | element h1 _ h3 _ ih ih' =>
    obtain ⟨hf1, hf2⟩ := AllFinite.append.mp hf
    exact .element h1 (ih hf1) h3 (ih' hf2)
  | keyValue h1 h2 h3 h4 _ ih => exact .keyValue h1 (hchars h2) h3 h4 (ih hf)
  | lastMember _ h2 ih => exact .lastMember (ih (AllFinite.append.mp hf).1) h2
  | memberList _ h2 _ ih ih' =>
    obtain ⟨hf1, hf2⟩ := AllFinite.append.mp hf
    exact .memberList (ih hf1) h2 (ih' hf2)

/-- A text has no literal beyond the range exactly if its value is finite. -/
theorem finite_iff_document {t : List Char} {v : Value} (h : Document lax t v) :
    AllFinite v.leaves ↔ ∃ w, Document laxFinite t w := by
  constructor
  · intro hf
    obtain ⟨u, w, h1, h2, h3⟩ := h
    exact ⟨v, u, w, h1, h2.toFinite hf, h3⟩
  · rintro ⟨w, hw⟩
    obtain rfl : w = v := (hw.mono laxFinite_le_lax).value_unique h
    obtain ⟨_, _, _, h2, _⟩ := hw
    intro x hx
    exact (h2.leafOk (.float x) hx).2.resolve_left Bool.false_ne_true

/-! ### A finite value -/

section Dumps

variable {lowerExp : LowerExp}

/-- What `dumps` needs of a leaf: what the reader gives, and that the
formatter writes a finite float well. -/
def Writable (lowerExp : LowerExp) (us : List Value) : Prop :=
  ∀ u ∈ us, LeafOk lax u ∧ ∀ x, u = .float x → x.isFinite → WritesBack lowerExp x

theorem Writable.append {us vs : List Value} (h : Writable lowerExp (us ++ vs)) :
    Writable lowerExp us ∧ Writable lowerExp vs :=
  ⟨fun u hu => h u (List.mem_append_left _ hu), fun u hu => h u (List.mem_append_right _ hu)⟩

theorem ws_space {t : List Char} : Ws (' ' :: t) t := .cons rfl (.nil t)

mutual

theorem reads_dumps : ∀ (v : Value), Writable lowerExp v.leaves → AllFinite v.leaves → ∀ r,
    Reads lax (.value v) (dumps lowerExp v ++ r) r
  | .null, _, _, r => .null r
  | .bool true, _, _, r => .true r
  | .bool false, _, _, r => .false r
  | .int i, hw, _, r => by
    obtain ⟨h1, h2⟩ := (hw (.int i) (List.mem_singleton_self _)).1
    exact reads_showInt h1 h2 r
  | .float x, hw, hf, r => by
    have hx := hf x (List.mem_singleton_self _)
    exact reads_pyReprF64 hx ((hw (.float x) (List.mem_singleton_self _)).2 x rfl hx) r
  | .str s, _, _, r => by
    rw [dumps, quoted_append]
    exact .string (chars_escaped s r)
  | .array vs, hw, hf, r => by
    rw [dumps, List.append_assoc, List.cons_append]
    by_cases hne : vs = []
    · rw [hne]
      exact .arrayEmpty (.nil _)
    · exact .array (reads_dumpsElements vs hne hw hf _)
  | .object kvs, hw, hf, r => by
    rw [dumps, List.append_assoc, List.cons_append]
    by_cases hne : kvs = []
    · rw [hne]
      exact .objectEmpty (.nil _)
    · exact .object (reads_dumpsMembers kvs hne hw hf _)

theorem reads_dumpsElements : ∀ (vs : List Value), vs ≠ [] → Writable lowerExp (elementLeaves vs) →
    AllFinite (elementLeaves vs) → ∀ r, Reads lax (.elements vs) (dumpsElements lowerExp vs ++ r) r
  | [], hne, _, _, _ => absurd rfl hne
  | [v], _, hw, hf, r => by
    rw [dumpsElements]
    exact .lastElement (.nil _) (reads_dumps v hw.append.1 (AllFinite.append.mp hf).1 r) (.nil r)
  | v :: v' :: vs, _, hw, hf, r => by
    obtain ⟨hw1, hw2⟩ := hw.append
    obtain ⟨hf1, hf2⟩ := AllFinite.append.mp hf
    rw [dumpsElements, List.append_assoc, List.append_assoc]
    refine .element (.nil _) (reads_dumps v hw1 hf1 _) (.nil _) ?_
    exact (reads_dumpsElements (v' :: vs) (List.cons_ne_nil _ _) hw2 hf2 r).ws_elements ws_space

theorem reads_dumpsMembers : ∀ (kvs : List (List Char × Value)), kvs ≠ [] →
    Writable lowerExp (memberLeaves kvs) → AllFinite (memberLeaves kvs) → ∀ r,
    Reads lax (.members kvs) (dumpsMembers lowerExp kvs ++ r) r
  | [], hne, _, _, _ => absurd rfl hne
  | [(k, v)], _, hw, hf, r => by
    have hv := reads_dumps v hw.append.1 (AllFinite.append.mp hf).1 r
    rw [dumpsMembers, List.append_assoc, List.append_assoc, quoted_append]
    exact .lastMember (.keyValue (.nil _) (chars_escaped k _) (.nil _) ws_space hv) (.nil r)
  | (k, v) :: kv :: kvs, _, hw, hf, r => by
    obtain ⟨hw1, hw2⟩ := hw.append
    obtain ⟨hf1, hf2⟩ := AllFinite.append.mp hf
    have hv := reads_dumps v hw1 hf1 ([',', ' '] ++ (dumpsMembers lowerExp (kv :: kvs) ++ r))
    rw [dumpsMembers]
    simp only [List.append_assoc]
    rw [quoted_append]
    refine .memberList (.keyValue (.nil _) (chars_escaped k _) (.nil _) ws_space hv) (.nil _) ?_
    exact (reads_dumpsMembers (kv :: kvs) (List.cons_ne_nil _ _) hw2 hf2 r).ws_members ws_space

end

theorem parse_dumps {v : Value} (hw : Writable lowerExp v.leaves) (hf : AllFinite v.leaves) :
    parse (dumps lowerExp v) = .ok v := by
  have h := reads_dumps v hw hf []
  rw [List.append_nil] at h
  exact parse_of_document ⟨_, [], .nil _, h, .nil _⟩

/-! ### An infinite float -/

theorem allFinite_leaf {u : Value} (h : ∀ x, u ≠ .float x) : AllFinite [u] := by
  intro x hx
  exact absurd (List.mem_singleton.mp hx).symm (h x)

/-- A written value begins with no white space and no bracket of another. -/
theorem dumps_starts (v : Value) (hw : Writable lowerExp v.leaves) :
    ∃ c u, dumps lowerExp v = c :: u ∧ isWs c = false ∧ c ≠ ']' := by
  by_cases hf : AllFinite v.leaves
  · have h := reads_dumps v hw hf []
    rw [List.append_nil] at h
    obtain ⟨c, u, he, hc⟩ := h.starts
    exact ⟨c, u, he, hc.not_isWs, hc.ne_bracket⟩
  · match v with
    | .null => exact absurd (allFinite_leaf fun _ => Value.noConfusion) hf
    | .bool _ => exact absurd (allFinite_leaf fun _ => Value.noConfusion) hf
    | .int _ => exact absurd (allFinite_leaf fun _ => Value.noConfusion) hf
    | .str _ => exact absurd (allFinite_leaf fun _ => Value.noConfusion) hf
    | .float (.finite neg bits) =>
      refine absurd ?_ hf
      intro x hx
      obtain rfl : x = .finite neg bits := by simpa [Value.leaves] using hx
      rfl
    | .float (.infinite false) => exact ⟨'I', _, rfl, by decide, by decide⟩
    | .float (.infinite true) => exact ⟨'-', _, rfl, by decide, by decide⟩
    | .float .nan => exact absurd rfl (hw (.float .nan) (List.mem_singleton_self _)).1.1
    | .array vs => exact ⟨'[', _, by rw [dumps]; rfl, by decide, by decide⟩
    | .object kvs => exact ⟨'{', _, by rw [dumps]; rfl, by decide, by decide⟩

theorem ws_dumps (v : Value) (hw : Writable lowerExp v.leaves) (r : List Char) :
    ws (dumps lowerExp v ++ r) = dumps lowerExp v ++ r := by
  obtain ⟨c, u, he, hc, -⟩ := dumps_starts v hw
  rw [he]
  exact ws_eq (.nil _) (noWs_cons hc _)

theorem dumpsElements_starts (vs : List Value) (hw : Writable lowerExp (elementLeaves vs))
    (hi : ¬AllFinite (elementLeaves vs)) (r : List Char) : ∀ u, ws (dumpsElements lowerExp vs ++ r) ≠ ']' :: u := by
  have key : ∀ (v : Value) (w : List Char), Writable lowerExp v.leaves →
      ∀ u, ws (dumps lowerExp v ++ w) ≠ ']' :: u := by
    intro v w hv u hu
    obtain ⟨c, x, he, -, hc⟩ := dumps_starts v hv
    rw [ws_dumps v hv, he] at hu
    exact hc (List.cons.inj hu).1
  match vs with
  | [] => exact absurd (fun _ hx => nomatch hx) hi
  | [v] =>
    rw [dumpsElements]
    exact key v r hw.append.1
  | v :: v' :: vs =>
    rw [dumpsElements, List.append_assoc, List.append_assoc]
    exact key v _ hw.append.1

theorem dumpsMembers_starts (kvs : List (List Char × Value)) (hi : ¬AllFinite (memberLeaves kvs))
    (r : List Char) : ∀ u, ws (dumpsMembers lowerExp kvs ++ r) ≠ '}' :: u := by
  have key : ∀ (k w u : List Char), ws (quoted k ++ w) ≠ '}' :: u := by
    intro k w u hu
    rw [quoted_append, ws_eq (.nil _) (noWs_cons (by decide) _)] at hu
    exact absurd (List.cons.inj hu).1 (by decide)
  match kvs with
  | [] => exact absurd (fun _ hx => nomatch hx) hi
  | [(k, v)] =>
    rw [dumpsMembers]
    simp only [List.append_assoc]
    exact key k _
  | (k, v) :: kv :: kvs =>
    rw [dumpsMembers]
    simp only [List.append_assoc]
    exact key k _

theorem array_space (n fuel : ℕ) (a : List Value) (t : List Char) :
    array n fuel a (' ' :: t) = array n fuel a t := by
  rw [← array_ws n fuel a t, ← array_ws n fuel a (' ' :: t)]
  rfl

theorem object_space (n fuel : ℕ) (kv : List (List Char × Value)) (t : List Char) :
    object n fuel kv (' ' :: t) = object n fuel kv t := by
  rw [← object_ws n fuel kv t, ← object_ws n fuel kv (' ' :: t)]
  rfl

/-- One element is read, and the rest behind a comma and a space. -/
theorem array_dumps {n fuel : ℕ} {v : Value} (hw : Writable lowerExp v.leaves) (hf : AllFinite v.leaves)
    {a : List Value} {t : List Char} (hfuel : 2 * (dumps lowerExp v ++ [',', ' '] ++ t).length < fuel) :
    array n (fuel + 1) a (dumps lowerExp v ++ [',', ' '] ++ t) = array n fuel (a ++ [v]) t := by
  rw [List.append_assoc] at hfuel ⊢
  have hv : value n fuel (dumps lowerExp v ++ ',' :: ' ' :: t) = .ok (v, ',' :: ' ' :: t) :=
    (reads_dumps v hw hf _).accepts (n := n) (follow_cons (by decide) _) fuel hfuel
  rw [array, ws_dumps v hw]
  show (value n fuel (dumps lowerExp v ++ ',' :: ' ' :: t) >>= _) = _
  rw [hv]
  exact array_space n fuel (a ++ [v]) t

/-- What the loop does behind the value of a member. -/
def objectRest (n fuel : ℕ) (kv : List (List Char × Value)) (k : List Char) (p : Value × List Char) :
    Except ParseError (Value × List Char) :=
  match ws p.2 with
  | ',' :: cs => object n fuel (kv ++ [(k, p.1)]) cs
  | '}' :: cs => .ok (.object (kv ++ [(k, p.1)]), cs)
  | cs => .error (.objectSeparator (pos n cs))

/-- One member is read up to its value. -/
theorem object_dumps {n fuel : ℕ} {k : List Char} {v : Value} (hw : Writable lowerExp v.leaves)
    {kv : List (List Char × Value)} {r : List Char} :
    object n (fuel + 1) kv (quoted k ++ [':', ' '] ++ dumps lowerExp v ++ r) =
      (value n fuel (dumps lowerExp v ++ r) >>= objectRest n fuel kv k) := by
  have hs : string n (ws (quoted k ++ [':', ' '] ++ dumps lowerExp v ++ r)) =
      .ok (k, ':' :: ' ' :: (dumps lowerExp v ++ r)) := by
    rw [List.append_assoc, List.append_assoc, quoted_append]
    rw [ws_eq (.nil _) (noWs_cons (by decide) _)]
    exact string_of_chars (chars_escaped k _)
  have hv : ws (' ' :: (dumps lowerExp v ++ r)) = dumps lowerExp v ++ r := ws_dumps v hw r
  rw [object, hs]
  show (value n fuel (ws (' ' :: (dumps lowerExp v ++ r))) >>= _) = _
  rw [hv]
  rfl

/-- One member is read, and the rest behind a comma and a space. -/
theorem object_dumps_next {n fuel : ℕ} {k : List Char} {v : Value} (hw : Writable lowerExp v.leaves)
    (hf : AllFinite v.leaves) {kv : List (List Char × Value)} {t : List Char}
    (hfuel : 2 * (dumps lowerExp v ++ ([',', ' '] ++ t)).length < fuel) :
    object n (fuel + 1) kv (quoted k ++ [':', ' '] ++ dumps lowerExp v ++ ([',', ' '] ++ t)) =
      object n fuel (kv ++ [(k, v)]) t := by
  have hv : value n fuel (dumps lowerExp v ++ ([',', ' '] ++ t)) = .ok (v, [',', ' '] ++ t) :=
    (reads_dumps v hw hf _).accepts (n := n) (follow_cons (by decide) _) fuel hfuel
  rw [object_dumps hw, hv]
  exact object_space n fuel (kv ++ [(k, v)]) t

theorem value_infinite {n fuel : ℕ} (neg : Bool) (r : List Char) (x : Value × List Char) :
    value n fuel (pyReprF64 lowerExp (.infinite neg) ++ r) ≠ .ok x := by
  intro h
  cases fuel with
  | zero => cases h
  | succ fuel =>
    cases neg with
    | false => cases h
    | true => cases h

mutual

/-- A value with an infinite float is written as a text that is refused. -/
theorem rejects_dumps {n : ℕ} : ∀ (v : Value), Writable lowerExp v.leaves → ¬AllFinite v.leaves → ∀ fuel r,
    2 * (dumps lowerExp v ++ r).length < fuel → ∀ x, value n fuel (dumps lowerExp v ++ r) ≠ .ok x
  | .null, _, hi, _, _, _, _ => absurd (allFinite_leaf fun _ => Value.noConfusion) hi
  | .bool _, _, hi, _, _, _, _ => absurd (allFinite_leaf fun _ => Value.noConfusion) hi
  | .int _, _, hi, _, _, _, _ => absurd (allFinite_leaf fun _ => Value.noConfusion) hi
  | .str _, _, hi, _, _, _, _ => absurd (allFinite_leaf fun _ => Value.noConfusion) hi
  | .float y, hw, hi, fuel, r, _, x => by
    match y with
    | .finite neg bits =>
      refine absurd ?_ hi
      intro z hz
      obtain rfl : z = .finite neg bits := by simpa [Value.leaves] using hz
      rfl
    | .infinite neg => exact value_infinite neg r x
    | .nan => exact absurd rfl (hw (.float .nan) (List.mem_singleton_self _)).1.1
  | .array vs, hw, hi, fuel, r, hfuel, x => by
    rw [dumps, List.append_assoc, List.cons_append, List.singleton_append] at hfuel ⊢
    obtain ⟨fuel, rfl⟩ : ∃ f, fuel = f + 1 := Nat.exists_eq_add_one.mpr (by omega)
    rw [List.length_cons] at hfuel
    rw [value_array (dumpsElements_starts vs hw hi _)]
    exact rejects_dumpsElements vs hw hi fuel [] r (by omega) x
  | .object kvs, hw, hi, fuel, r, hfuel, x => by
    rw [dumps, List.append_assoc, List.cons_append, List.singleton_append] at hfuel ⊢
    obtain ⟨fuel, rfl⟩ : ∃ f, fuel = f + 1 := Nat.exists_eq_add_one.mpr (by omega)
    rw [List.length_cons] at hfuel
    rw [value_object (dumpsMembers_starts kvs hi _)]
    exact rejects_dumpsMembers kvs hw hi fuel [] r (by omega) x

theorem rejects_dumpsElements {n : ℕ} : ∀ (vs : List Value), Writable lowerExp (elementLeaves vs) →
    ¬AllFinite (elementLeaves vs) → ∀ fuel a r, 2 * (dumpsElements lowerExp vs ++ ']' :: r).length + 1 < fuel →
    ∀ x, array n fuel a (dumpsElements lowerExp vs ++ ']' :: r) ≠ .ok x
  | [], _, hi, _, _, _, _, _ => absurd (fun _ hx => nomatch hx) hi
  | [v], hw, hi, fuel, a, r, hfuel, x => by
    obtain ⟨fuel, rfl⟩ : ∃ f, fuel = f + 1 := Nat.exists_eq_add_one.mpr (by omega)
    rw [elementLeaves, elementLeaves, List.append_nil] at hw hi
    rw [dumpsElements] at hfuel ⊢
    rw [array, ws_dumps v hw]
    intro h
    obtain ⟨y, hy, -⟩ := Fallible.bind_eq_ok h
    exact rejects_dumps v hw hi fuel _ (by omega) y hy
  | v :: v' :: vs, hw, hi, fuel, a, r, hfuel, x => by
    obtain ⟨fuel, rfl⟩ : ∃ f, fuel = f + 1 := Nat.exists_eq_add_one.mpr (by omega)
    obtain ⟨hw1, hw2⟩ := hw.append
    rw [dumpsElements, List.append_assoc] at hfuel ⊢
    by_cases hf : AllFinite v.leaves
    · have hi2 : ¬AllFinite (elementLeaves (v' :: vs)) := fun h => hi (AllFinite.append.mpr ⟨hf, h⟩)
      rw [array_dumps hw1 hf (by omega)]
      refine rejects_dumpsElements (v' :: vs) hw2 hi2 fuel _ r ?_ x
      rw [List.length_append, List.length_append] at hfuel
      simp only [List.length_cons, List.length_nil] at hfuel
      omega
    · rw [List.append_assoc] at hfuel ⊢
      rw [array, ws_dumps v hw1]
      intro h
      obtain ⟨y, hy, -⟩ := Fallible.bind_eq_ok h
      exact rejects_dumps v hw1 hf fuel _ (by omega) y hy

theorem rejects_dumpsMembers {n : ℕ} : ∀ (kvs : List (List Char × Value)), Writable lowerExp (memberLeaves kvs) →
    ¬AllFinite (memberLeaves kvs) → ∀ fuel kv r, 2 * (dumpsMembers lowerExp kvs ++ '}' :: r).length + 1 < fuel →
    ∀ x, object n fuel kv (dumpsMembers lowerExp kvs ++ '}' :: r) ≠ .ok x
  | [], _, hi, _, _, _, _, _ => absurd (fun _ hx => nomatch hx) hi
  | [(k, v)], hw, hi, fuel, kv, r, hfuel, x => by
    obtain ⟨fuel, rfl⟩ : ∃ f, fuel = f + 1 := Nat.exists_eq_add_one.mpr (by omega)
    rw [memberLeaves, memberLeaves, List.append_nil] at hw hi
    rw [dumpsMembers] at hfuel ⊢
    rw [object_dumps hw]
    intro h
    obtain ⟨y, hy, -⟩ := Fallible.bind_eq_ok h
    simp only [List.length_append] at hfuel
    exact rejects_dumps v hw hi fuel _ (by rw [List.length_append]; omega) y hy
  | (k, v) :: p :: kvs, hw, hi, fuel, kv, r, hfuel, x => by
    obtain ⟨fuel, rfl⟩ : ∃ f, fuel = f + 1 := Nat.exists_eq_add_one.mpr (by omega)
    obtain ⟨hw1, hw2⟩ := hw.append
    rw [dumpsMembers, List.append_assoc, List.append_assoc] at hfuel ⊢
    simp only [List.length_append, List.length_cons, List.length_nil] at hfuel
    by_cases hf : AllFinite v.leaves
    · have hi2 : ¬AllFinite (memberLeaves (p :: kvs)) := fun h => hi (AllFinite.append.mpr ⟨hf, h⟩)
      rw [object_dumps_next hw1 hf (by simp only [List.length_append, List.length_cons, List.length_nil]; omega)]
      refine rejects_dumpsMembers (p :: kvs) hw2 hi2 fuel _ r ?_ x
      simp only [List.length_append, List.length_cons]
      omega
    · rw [object_dumps hw1]
      intro h
      obtain ⟨y, hy, -⟩ := Fallible.bind_eq_ok h
      refine rejects_dumps v hw1 hf fuel _ ?_ y hy
      simp only [List.length_append, List.length_cons, List.length_nil]
      omega

end

theorem finite_of_parse_dumps {v : Value} (hw : Writable lowerExp v.leaves)
    (h : parse (dumps lowerExp v) = .ok v) : AllFinite v.leaves := by
  by_contra hi
  unfold parse at h
  obtain ⟨y, hy, -⟩ := Fallible.bind_eq_ok h
  have hws := ws_dumps v hw []
  rw [List.append_nil] at hws
  rw [hws, ← List.append_nil (dumps lowerExp v)] at hy
  refine rejects_dumps v hw hi _ [] ?_ y hy
  rw [List.append_nil]
  omega

end Dumps

/-! ### Texts -/

/-- The formatter is right on every finite float of a value. -/
def FormatterOk (lowerExp : LowerExp) (v : Value) : Prop :=
  ∀ x, .float x ∈ v.leaves → x.isFinite → WritesBack lowerExp x

/-- Reading, writing and reading again gives the value again exactly if no
literal of the text is beyond the range of the format. -/
theorem roundTrip_iff_finite {lowerExp : LowerExp} {t : List Char} {v : Value} (h : parse t = .ok v)
    (hfmt : FormatterOk lowerExp v) :
    parse (dumps lowerExp v) = .ok v ↔ ∃ w, Document laxFinite t w := by
  have hdoc := document_of_parse h
  have hw : Writable lowerExp v.leaves := by
    intro u hu
    obtain ⟨_, _, _, hr, _⟩ := hdoc
    refine ⟨hr.leafOk u hu, ?_⟩
    rintro x rfl hx
    exact hfmt x hu hx
  rw [← finite_iff_document hdoc]
  exact ⟨finite_of_parse_dumps hw, parse_dumps hw⟩

/-- The float of the literal `1e-5`. -/
def tenMillionths : Binary64 := .nearest false (Binary64.decimal 1 (-5))

theorem document_tenMillionths :
    Document laxFinite ['[', '1', 'e', '-', '5', ']'] (.array [.float tenMillionths]) := by
  have hok : NumberText.Ok laxFinite ⟨false, ['1'], none, some ('e', ['-'], ['5'])⟩ :=
    ⟨List.all_eq_true.mp rfl, by decide, by decide, by decide, by simp, by simp, by simp, by simp,
      fun x hx => Option.mem_some_iff.mp hx ▸ List.all_eq_true.mp rfl⟩
  have hval : NumberText.Denotes laxFinite ⟨false, ['1'], none, some ('e', ['-'], ['5'])⟩
      (.float tenMillionths) :=
    .float (.inr rfl) rfl (.inr (by decide))
  exact ⟨_, [], .nil _, .array (.lastElement (.nil _) (.number [']'] hok hval) (.nil _)), .nil _⟩

theorem formatterOk_tenMillionths : FormatterOk (fun _ => ['1', 'e', '-', '5']) (.array [.float tenMillionths]) := by
  intro x hx _
  obtain rfl : x = tenMillionths := by simpa [Value.leaves, elementLeaves] using hx
  exact ⟨⟨false, '1', [], -5⟩, ⟨by decide, by simp, by decide⟩, by decide, rfl⟩

theorem roundTrip_iff_finite_tenMillionths :
    parse ['[', '1', 'e', '-', '5', ']'] = .ok (.array [.float tenMillionths]) ∧
      parse (dumps (fun _ => ['1', 'e', '-', '5']) (.array [.float tenMillionths])) =
        .ok (.array [.float tenMillionths]) := by
  have h : parse ['[', '1', 'e', '-', '5', ']'] = .ok (.array [.float tenMillionths]) :=
    parse_of_document (document_tenMillionths.mono laxFinite_le_lax)
  exact ⟨h, (roundTrip_iff_finite h formatterOk_tenMillionths).mpr ⟨_, document_tenMillionths⟩⟩

/-- The literal `1e999` is read as infinity, and `Infinity` is refused. -/
theorem roundTrip_fails_infinite : ¬∀ (lowerExp : LowerExp) (t : List Char) (v : Value), FormatterOk lowerExp v →
    parse t = .ok v → parse (dumps lowerExp v) = .ok v := by
  intro h
  have hinf : Binary64.nearest false (Binary64.decimal 1 999) = .infinite false := by decide +kernel
  have hread : parse ['1', 'e', '9', '9', '9'] = .ok (.float (.infinite false)) := by
    rw [← hinf]
    rfl
  have hfmt : FormatterOk (fun _ => []) (.float (.infinite false)) := by
    intro x hx hfin
    obtain rfl : x = .infinite false := by simpa [Value.leaves] using hx
    cases hfin
  cases h (fun _ => []) _ _ hfmt hread

end Pyjson
end Siphon
