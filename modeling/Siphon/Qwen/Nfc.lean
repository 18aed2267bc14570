/-
# Normalization to NFC

`shell-text/src/unicode_gc.rs`: full canonical decomposition, canonical
ordering, canonical composition. The generated tables are the lookups of a
`Tables`. The decomposition of a character goes on with the characters it
decomposes into, and ends since the tables have no cycle: each entry leads to
characters of lower depth (`decomposeOne_eq` is the recursion of the source).
-/
import Siphon.Qwen.Pretokenizer

namespace Siphon
namespace Qwen

/-- The generated tables. -/
structure Tables extends Categories where
  /-- `CCC`, 0 for a character that is not in it. -/
  ccc : Char → ℕ
  decompose1 : Char → Option Char
  decompose2 : Char → Option (Char × Char)
  /-- `COMPOSE` -/
  composed : Char → Char → Option Char
  /-- How deep the decomposition of a character is nested. -/
  depth : Char → ℕ
  depth_decompose1 : ∀ c d, decompose1 c = some d → depth d < depth c
  depth_decompose2 : ∀ c a b, decompose2 c = some (a, b) → depth a < depth c ∧ depth b < depth c

variable (t : Tables)

def sBase : ℕ := 0xAC00
def lBase : ℕ := 0x1100
def vBase : ℕ := 0x1161
def tBase : ℕ := 0x11A7
def vCount : ℕ := 21
def tCount : ℕ := 28
def nCount : ℕ := vCount * tCount
def sCount : ℕ := 19 * nCount

/-- The jamo of a Hangul syllable. -/
def hangul (c : Char) : Option (List Char) :=
  if sBase ≤ c.toNat ∧ c.toNat < sBase + sCount then
    let si := c.toNat - sBase
    let tj := si % tCount
    some ([Char.ofNat (lBase + si / nCount), Char.ofNat (vBase + si % nCount / tCount)] ++
      if tj ≠ 0 then [Char.ofNat (tBase + tj)] else [])
  else none

/-- `decompose_one`, down to a depth. -/
def decomposeFrom : ℕ → Char → List Char
  | 0, c => [c]
  | n + 1, c =>
    match hangul c with
    | some jamo => jamo
    | none =>
      match t.decompose1 c with
      | some d => decomposeFrom n d
      | none =>
        match t.decompose2 c with
        | some (a, b) => decomposeFrom n a ++ decomposeFrom n b
        | none => [c]

/-- `decompose_one` -/
def decomposeOne (c : Char) : List Char := decomposeFrom t (t.depth c + 1) c

/-- A character behind the sorted ones, which are in reverse: it goes before
those of a higher class, down to a starter. -/
def insertMark (c : Char) : List Char → List Char
  | [] => [c]
  | p :: ps => if t.ccc p = 0 ∨ t.ccc p ≤ t.ccc c then c :: p :: ps else p :: insertMark c ps

/-- The canonical ordering. -/
def canonicalOrder (d : List Char) : List Char :=
  (d.foldl (fun sorted c => if t.ccc c = 0 then c :: sorted else insertMark t c sorted) []).reverse

/-- `compose` -/
def compose (a b : Char) : Option Char :=
  if lBase ≤ a.toNat ∧ a.toNat < lBase + 19 ∧ vBase ≤ b.toNat ∧ b.toNat < vBase + vCount then
    some (Char.ofNat (sBase + ((a.toNat - lBase) * vCount + (b.toNat - vBase)) * tCount))
  else if (sBase ≤ a.toNat ∧ a.toNat < sBase + sCount) ∧ (a.toNat - sBase) % tCount = 0 ∧
      (tBase + 1 ≤ b.toNat ∧ b.toNat < tBase + tCount) then
    some (Char.ofNat (a.toNat + (b.toNat - tBase)))
  else t.composed a b

/-- The state of the composition. -/
structure Composing where
  out : List Char
  starterPos : ℕ
  starterCh : Char
  lastClass : ℕ

def composeStep (s : Composing) (ch : Char) : Composing :=
  let chClass := t.ccc ch
  match if s.lastClass < chClass ∨ s.lastClass = 0 then compose t s.starterCh ch else none with
  | some comp => { s with starterCh := comp, out := s.out.set s.starterPos comp }
  | none =>
    if chClass = 0 then ⟨s.out ++ [ch], s.out.length, ch, chClass⟩
    else { s with out := s.out ++ [ch], lastClass := chClass }

/-- `nfc` -/
def nfc (s : List Char) : List Char :=
  match canonicalOrder t (s.flatMap (decomposeOne t)) with
  | [] => []
  | c :: cs => (cs.foldl (composeStep t) ⟨[c], 0, c, if t.ccc c ≠ 0 then 256 else 0⟩).out

/-! ### The recursion of the source -/

/-- A depth that is enough is as good as any other. -/
theorem decomposeFrom_of_lt : ∀ (n m : ℕ) (c : Char), t.depth c < n → t.depth c < m →
    decomposeFrom t n c = decomposeFrom t m c
  | n + 1, m + 1, c, hn, hm => by
    rw [decomposeFrom, decomposeFrom]
    cases hangul c with
    | some jamo => rfl
    | none =>
      dsimp only
      cases h1 : t.decompose1 c with
      | some d =>
        have hd := t.depth_decompose1 c d h1
        exact decomposeFrom_of_lt n m d (by omega) (by omega)
      | none =>
        cases h2 : t.decompose2 c with
        | none => rfl
        | some ab =>
          obtain ⟨ha, hb⟩ := t.depth_decompose2 c ab.1 ab.2 h2
          dsimp only
          rw [decomposeFrom_of_lt n m ab.1 (by omega) (by omega), decomposeFrom_of_lt n m ab.2 (by omega) (by omega)]

theorem decomposeOne_eq (c : Char) : decomposeOne t c =
    (hangul c).getD (match t.decompose1 c, t.decompose2 c with
      | some d, _ => decomposeOne t d
      | none, some (a, b) => decomposeOne t a ++ decomposeOne t b
      | none, none => [c]) := by
  have hlow : ∀ d, t.depth d < t.depth c → decomposeFrom t (t.depth c) d = decomposeOne t d := fun d hd =>
    decomposeFrom_of_lt t _ _ d hd (Nat.lt_succ_self _)
  conv_lhs => rw [decomposeOne, decomposeFrom]
  cases hangul c with
  | some jamo => rfl
  | none =>
    dsimp only [Option.getD]
    cases h1 : t.decompose1 c with
    | some d => exact hlow d (t.depth_decompose1 c d h1)
    | none =>
      cases h2 : t.decompose2 c with
      | none => rfl
      | some ab =>
        obtain ⟨ha, hb⟩ := t.depth_decompose2 c ab.1 ab.2 h2
        exact congrArg₂ (· ++ ·) (hlow ab.1 ha) (hlow ab.2 hb)

end Qwen
end Siphon
