/-
# The composition of a text keeps its canonical decomposition

What `nfc` puts together comes apart again: the full decomposition of its
result, in canonical order, is that of the text (`nfd_nfc`), so a second
`nfc` changes nothing. The invariant of the composition (`Composed`) cuts
what it has put out at the last starter. Behind it stand the marks that did
not compose, with no class above the last one, and the decomposition of all
of it sorts to the characters read so far. A mark that composes is of a
higher class than those, and sorting moves it behind them again
(`Runs.order_move`).

Key definitions: `Tables.Canonical`, `nfd`, `Composes`.
Key theorems: `decomposeOne_compose`, `composeStep_composed`, `nfd_nfc`.
-/
import Siphon.Lib.Runs
import Siphon.Qwen.Nfc

namespace Siphon
namespace Qwen

/-- What the generator sees to in the tables: `COMPOSE` inverts pairs of
`DECOMPOSE_2`, and the Hangul syllables, which are composed and decomposed by
arithmetic, do not come out of it, nor do their jamo decompose. -/
structure Tables.Canonical (t : Tables) : Prop where
  composed_decompose : ∀ a b c, t.composed a b = some c → t.decompose1 c = none ∧ t.decompose2 c = some (a, b)
  composed_hangul : ∀ a b c, t.composed a b = some c → hangul c = none
  jamo : ∀ c jamo, hangul c = some jamo → ∀ j ∈ jamo, t.decompose1 j = none ∧ t.decompose2 j = none

variable (t : Tables)

/-- The full canonical decomposition, in canonical order. -/
def nfd (s : List Char) : List Char := canonicalOrder t (s.flatMap (decomposeOne t))

/-- The state of the composition behind a first character and others. -/
def composing (c : Char) (cs : List Char) : Composing :=
  cs.foldl (composeStep t) ⟨[c], 0, c, if t.ccc c ≠ 0 then 256 else 0⟩

/-- The character composes with the starter. -/
def Composes (s : Composing) (ch : Char) : Prop :=
  ∃ comp, composeStep t s ch = { s with starterCh := comp, out := s.out.set s.starterPos comp }

theorem nfc_of_nfd {s : List Char} {c : Char} {cs : List Char} (h : nfd t s = c :: cs) :
    nfc t s = (composing t c cs).out := by
  unfold nfc
  rw [← nfd, h]
  rfl

theorem nfc_congr {s s' : List Char} (h : nfd t s = nfd t s') : nfc t s = nfc t s' := by
  unfold nfc
  rw [← nfd, ← nfd, h]

theorem insertMark_eq (c : Char) : ∀ s : List Char, insertMark t c s = Runs.insert t.ccc c s
  | [] => rfl
  | p :: ps => by rw [insertMark, Runs.insert, insertMark_eq c ps]

theorem canonicalOrder_eq (d : List Char) : canonicalOrder t d = Runs.order t.ccc d := by
  unfold canonicalOrder Runs.order
  congr 2
  funext sorted c
  rw [Runs.push, insertMark_eq]

/-! ### Hangul -/

/-- The jamo of a syllable, with the constants put in. -/
theorem hangul_of_syllable {c : Char} (hc : 0xAC00 ≤ c.toNat ∧ c.toNat < 0xD7A4) :
    hangul c = some ([Char.ofNat (0x1100 + (c.toNat - 0xAC00) / 588),
        Char.ofNat (0x1161 + (c.toNat - 0xAC00) % 588 / 28)] ++
      if (c.toNat - 0xAC00) % 28 ≠ 0 then [Char.ofNat (0x11A7 + (c.toNat - 0xAC00) % 28)] else []) := by
  have hs : sBase = 0xAC00 ∧ sCount = 11172 := ⟨rfl, rfl⟩
  have hn : nCount = 588 ∧ tCount = 28 := ⟨rfl, rfl⟩
  have hb : lBase = 0x1100 ∧ vBase = 0x1161 ∧ tBase = 0x11A7 := ⟨rfl, rfl, rfl⟩
  rw [hangul, hs.1, hs.2, hn.1, hn.2, hb.1, hb.2.1, hb.2.2, if_pos hc]

theorem hangul_of_not {c : Char} (hc : ¬ (0xAC00 ≤ c.toNat ∧ c.toNat < 0xD7A4)) : hangul c = none := if_neg hc

/-- The jamo stand below the syllables. -/
theorem jamo_lt {c : Char} {jamo : List Char} (h : hangul c = some jamo) {j : Char} (hj : j ∈ jamo) :
    0x1100 ≤ j.toNat ∧ j.toNat < 0x11C3 := by
  by_cases hc : 0xAC00 ≤ c.toNat ∧ c.toNat < 0xD7A4
  · rw [hangul_of_syllable hc] at h
    obtain rfl := Option.some.inj h
    simp only [List.mem_append, List.mem_cons, List.not_mem_nil, or_false] at hj
    rcases hj with (rfl | rfl) | hj
    · rw [Utf8.toNat_ofNat (by omega)]
      omega
    · rw [Utf8.toNat_ofNat (by omega)]
      omega
    · by_cases ht : (c.toNat - 0xAC00) % 28 ≠ 0
      · rw [if_pos ht] at hj
        rw [List.mem_singleton.mp hj, Utf8.toNat_ofNat (by omega)]
        omega
      · rw [if_neg ht] at hj
        exact absurd hj List.not_mem_nil
  · rw [hangul_of_not hc] at h
    exact absurd h (by simp)

/-- A leading and a vowel jamo are those of the syllable they compose to. -/
theorem hangul_leading {a b : Char} (ha : 0x1100 ≤ a.toNat ∧ a.toNat < 0x1113)
    (hb : 0x1161 ≤ b.toNat ∧ b.toNat < 0x1176) {c : Char}
    (hc : c = Char.ofNat (0xAC00 + ((a.toNat - 0x1100) * 21 + (b.toNat - 0x1161)) * 28)) :
    hangul c = some [a, b] := by
  have hn : c.toNat = 0xAC00 + ((a.toNat - 0x1100) * 21 + (b.toNat - 0x1161)) * 28 := hc ▸ Utf8.toNat_ofNat (by omega)
  have hl : 0x1100 + (c.toNat - 0xAC00) / 588 = a.toNat := by omega
  have hv : 0x1161 + (c.toNat - 0xAC00) % 588 / 28 = b.toNat := by omega
  have ht : (c.toNat - 0xAC00) % 28 = 0 := by omega
  rw [hangul_of_syllable (by omega), hl, hv, Char.ofNat_toNat, Char.ofNat_toNat, if_neg (not_not.mpr ht),
    List.append_nil]

/-- A trailing jamo comes last in the syllable it is put onto. -/
theorem hangul_trailing {a b : Char} (ha : 0xAC00 ≤ a.toNat ∧ a.toNat < 0xD7A4) (h0 : (a.toNat - 0xAC00) % 28 = 0)
    (hb : 0x11A8 ≤ b.toNat ∧ b.toNat < 0x11C3) {c : Char} (hc : c = Char.ofNat (a.toNat + (b.toNat - 0x11A7))) :
    ∃ jamo, hangul a = some jamo ∧ hangul c = some (jamo ++ [b]) := by
  have hn : c.toNat = a.toNat + (b.toNat - 0x11A7) := hc ▸ Utf8.toNat_ofNat (by omega)
  have hl : (c.toNat - 0xAC00) / 588 = (a.toNat - 0xAC00) / 588 := by omega
  have hv : (c.toNat - 0xAC00) % 588 / 28 = (a.toNat - 0xAC00) % 588 / 28 := by omega
  have ht : (c.toNat - 0xAC00) % 28 ≠ 0 := by omega
  have hb' : 0x11A7 + (c.toNat - 0xAC00) % 28 = b.toNat := by omega
  refine ⟨_, hangul_of_syllable ha, ?_⟩
  rw [hangul_of_syllable (by omega), hl, hv, if_pos ht, hb', Char.ofNat_toNat, if_neg (not_not.mpr h0), List.append_nil]

/-! ### Full decompositions -/

theorem decomposeOne_of_hangul {c : Char} {jamo : List Char} (hj : hangul c = some jamo) : decomposeOne t c = jamo := by
  rw [decomposeOne_eq, hj]
  rfl

variable {t} (h : t.Canonical)

include h in
/-- The characters of a decomposition do not decompose any further. -/
theorem decomposeOne_of_mem (c e : Char) (he : e ∈ decomposeOne t c) : decomposeOne t e = [e] := by
  rw [decomposeOne_eq] at he
  cases hj : hangul c with
  | some jamo =>
    rw [hj] at he
    obtain ⟨h1, h2⟩ := h.jamo c jamo hj e he
    have hlt := jamo_lt hj he
    rw [decomposeOne_eq, hangul_of_not (by omega), h1, h2]
    rfl
  | none =>
    rw [hj, Option.getD_none] at he
    cases h1 : t.decompose1 c with
    | some d =>
      have hd := t.depth_decompose1 c d h1
      rw [h1] at he
      exact decomposeOne_of_mem d e he
    | none =>
      cases h2 : t.decompose2 c with
      | some ab =>
        obtain ⟨ha, hb⟩ := t.depth_decompose2 c ab.1 ab.2 h2
        rw [h1, h2] at he
        rcases List.mem_append.mp he with he | he
        · exact decomposeOne_of_mem ab.1 e he
        · exact decomposeOne_of_mem ab.2 e he
      | none =>
        rw [h1, h2] at he
        obtain rfl := List.mem_singleton.mp he
        rw [decomposeOne_eq, hj, h1, h2]
        rfl
termination_by t.depth c

include h in
theorem decomposeOne_of_mem_nfd {s : List Char} {e : Char} (he : e ∈ nfd t s) : decomposeOne t e = [e] := by
  rw [nfd, canonicalOrder_eq, Runs.mem_order] at he
  obtain ⟨c, -, hc⟩ := List.mem_flatMap.mp he
  exact decomposeOne_of_mem h c e hc

include h in
/-- What two characters compose to decomposes into what they do. -/
theorem decomposeOne_compose {a b c : Char} (hc : compose t a b = some c) :
    decomposeOne t c = decomposeOne t a ++ decomposeOne t b := by
  unfold compose at hc
  split_ifs at hc with hlv hvt
  · have hd := decomposeOne_of_hangul t (hangul_leading ⟨hlv.1, hlv.2.1⟩ hlv.2.2 (Option.some.inj hc).symm)
    rw [decomposeOne_of_mem h c a (by simp [hd]), decomposeOne_of_mem h c b (by simp [hd])]
    exact hd
  · obtain ⟨jamo, ha, hj⟩ := hangul_trailing hvt.1 hvt.2.1 hvt.2.2 (Option.some.inj hc).symm
    have hd := decomposeOne_of_hangul t hj
    rw [decomposeOne_of_hangul t ha, decomposeOne_of_mem h c b (by simp [hd])]
    exact hd
  · obtain ⟨h1, h2⟩ := h.composed_decompose a b c hc
    rw [decomposeOne_eq, h.composed_hangul a b c hc, h1, h2]
    rfl

/-! ### The composition -/

variable (t) in
/-- What the composition has put out behind the characters `p`, cut at the last
starter. -/
structure Composed (p pre tail : List Char) (s : Composing) : Prop where
  out_eq : s.out = pre ++ s.starterCh :: tail
  starterPos_eq : s.starterPos = pre.length
  order_eq : Runs.order t.ccc (s.out.flatMap (decomposeOne t)) = p
  marks : ∀ m ∈ tail, decomposeOne t m = [m] ∧ t.ccc m ≠ 0 ∧ t.ccc m ≤ s.lastClass
  last : tail ≠ [] → ∃ q ∈ p.getLast?, s.lastClass ≤ t.ccc q

theorem flatMap_decomposeOne : ∀ {l : List Char}, (∀ e ∈ l, decomposeOne t e = [e]) → l.flatMap (decomposeOne t) = l
  | [], _ => rfl
  | e :: l, hl => by
    rw [List.flatMap_cons, hl e List.mem_cons_self, flatMap_decomposeOne fun e he => hl e (List.mem_cons_of_mem _ he)]
    rfl

theorem Composed.flatMap_tail {p pre tail : List Char} {s : Composing} (hs : Composed t p pre tail s) :
    tail.flatMap (decomposeOne t) = tail :=
  flatMap_decomposeOne fun m hm => (hs.marks m hm).1

/-- A character that composes is of a higher class than all marks it passes. -/
theorem Composed.unblocked {p pre tail : List Char} {s : Composing} (hs : Composed t p pre tail s) {ch : Char}
    (hch : s.lastClass < t.ccc ch ∨ s.lastClass = 0) : ∀ m ∈ tail, t.ccc m ≠ 0 ∧ t.ccc m < t.ccc ch := by
  intro m hm
  obtain ⟨-, h0, hle⟩ := hs.marks m hm
  exact ⟨h0, by omega⟩

/-- A character behind what is put out comes last in its decomposition. -/
theorem Composed.order_concat {p pre tail : List Char} {s : Composing} (hs : Composed t p pre tail s) {ch : Char}
    (hp : Runs.Ordered t.ccc (p ++ [ch])) :
    Runs.order t.ccc (s.out.flatMap (decomposeOne t) ++ [ch]) = p ++ [ch] := by
  rw [← Runs.order_append_left, hs.order_eq, Runs.order_of_ordered hp]

/-- The three things a step does. -/
theorem composeStep_cases (s : Composing) (ch : Char) :
    (∃ comp, (s.lastClass < t.ccc ch ∨ s.lastClass = 0) ∧ compose t s.starterCh ch = some comp ∧
      composeStep t s ch = { s with starterCh := comp, out := s.out.set s.starterPos comp }) ∨
    (t.ccc ch = 0 ∧ composeStep t s ch = ⟨s.out ++ [ch], s.out.length, ch, 0⟩) ∨
    (t.ccc ch ≠ 0 ∧ composeStep t s ch = { s with out := s.out ++ [ch], lastClass := t.ccc ch }) := by
  have hnone : composeStep t s ch = (if t.ccc ch = 0 then ⟨s.out ++ [ch], s.out.length, ch, t.ccc ch⟩
      else { s with out := s.out ++ [ch], lastClass := t.ccc ch }) →
      (t.ccc ch = 0 ∧ composeStep t s ch = ⟨s.out ++ [ch], s.out.length, ch, 0⟩) ∨
      (t.ccc ch ≠ 0 ∧ composeStep t s ch = { s with out := s.out ++ [ch], lastClass := t.ccc ch }) := by
    intro hstep
    by_cases h0 : t.ccc ch = 0
    · rw [if_pos h0, h0] at hstep
      exact .inl ⟨h0, hstep⟩
    · rw [if_neg h0] at hstep
      exact .inr ⟨h0, hstep⟩
  by_cases hfree : s.lastClass < t.ccc ch ∨ s.lastClass = 0
  · cases hc : compose t s.starterCh ch with
    | some comp => exact .inl ⟨comp, hfree, rfl, by simp only [composeStep, if_pos hfree, hc]⟩
    | none => exact .inr (hnone (by simp only [composeStep, if_pos hfree, hc]))
  · exact .inr (hnone (by simp only [composeStep, if_neg hfree]))

include h in
/-- The character composes with the starter. -/
theorem Composed.compose {p pre tail : List Char} {s : Composing} (hs : Composed t p pre tail s) {ch comp : Char}
    (hp : Runs.Ordered t.ccc (p ++ [ch])) (hch : decomposeOne t ch = [ch])
    (hfree : s.lastClass < t.ccc ch ∨ s.lastClass = 0) (hc : compose t s.starterCh ch = some comp) :
    Composed t (p ++ [ch]) pre tail { s with starterCh := comp, out := s.out.set s.starterPos comp } where
  out_eq := by simp [hs.out_eq, hs.starterPos_eq]
  starterPos_eq := hs.starterPos_eq
  order_eq := by
    have hout : s.out.set s.starterPos comp = pre ++ comp :: tail := by simp [hs.out_eq, hs.starterPos_eq]
    have hpass := hs.unblocked hfree
    have hmove : Runs.order t.ccc (pre.flatMap (decomposeOne t) ++ decomposeOne t s.starterCh ++ ch :: tail) =
        Runs.order t.ccc (pre.flatMap (decomposeOne t) ++ decomposeOne t s.starterCh ++ tail ++ [ch]) := by
      apply Runs.order_move
      · intro htail
        obtain ⟨m, hm⟩ := List.exists_mem_of_ne_nil tail htail
        have := hpass m hm
        omega
      · intro m hm
        exact ⟨(hpass m hm).1, (hpass m hm).2.ne⟩
    calc Runs.order t.ccc ((s.out.set s.starterPos comp).flatMap (decomposeOne t))
        = Runs.order t.ccc (pre.flatMap (decomposeOne t) ++ decomposeOne t s.starterCh ++ ch :: tail) := by
          rw [hout, List.flatMap_append, List.flatMap_cons, hs.flatMap_tail, decomposeOne_compose h hc, hch]
          simp
      _ = Runs.order t.ccc (s.out.flatMap (decomposeOne t) ++ [ch]) := by
          rw [hmove, hs.out_eq, List.flatMap_append, List.flatMap_cons, hs.flatMap_tail]
          simp
      _ = p ++ [ch] := hs.order_concat hp
  marks := hs.marks
  last := fun htail => by
    obtain ⟨m, hm⟩ := List.exists_mem_of_ne_nil tail htail
    obtain ⟨-, h0, hle⟩ := hs.marks m hm
    exact ⟨ch, by simp, by simp; omega⟩

/-- A starter that does not compose is the next one. -/
theorem Composed.starter {p pre tail : List Char} {s : Composing} (hs : Composed t p pre tail s) {ch : Char}
    (hp : Runs.Ordered t.ccc (p ++ [ch])) (hch : decomposeOne t ch = [ch]) :
    Composed t (p ++ [ch]) s.out [] ⟨s.out ++ [ch], s.out.length, ch, 0⟩ where
  out_eq := rfl
  starterPos_eq := rfl
  order_eq := by simpa [hch] using hs.order_concat hp
  marks := fun m hm => absurd hm List.not_mem_nil
  last := fun htail => absurd rfl htail

/-- A mark that does not compose stands behind the starter. -/
theorem Composed.mark {p pre tail : List Char} {s : Composing} (hs : Composed t p pre tail s) {ch : Char}
    (hp : Runs.Ordered t.ccc (p ++ [ch])) (hch : decomposeOne t ch = [ch]) (h0 : t.ccc ch ≠ 0) :
    Composed t (p ++ [ch]) pre (tail ++ [ch]) { s with out := s.out ++ [ch], lastClass := t.ccc ch } where
  out_eq := by simp [hs.out_eq]
  starterPos_eq := hs.starterPos_eq
  order_eq := by simpa [hch] using hs.order_concat hp
  marks := by
    intro m hm
    rcases List.mem_append.mp hm with hm | hm
    · -- the last class is no higher than that of the last character, which the mark follows
      obtain ⟨hd, hm0, hle⟩ := hs.marks m hm
      obtain ⟨q, hq, hlast⟩ := hs.last (List.ne_nil_of_mem hm)
      have hqc := (List.isChain_append.mp hp).2.2 q hq ch rfl
      exact ⟨hd, hm0, hle.trans (hlast.trans (hqc.resolve_left h0))⟩
    · obtain rfl := List.mem_singleton.mp hm
      exact ⟨hch, h0, le_rfl⟩
  last := fun _ => ⟨ch, by simp, le_rfl⟩

include h in
theorem composeStep_composed {p pre tail : List Char} {s : Composing} (hs : Composed t p pre tail s) {ch : Char}
    (hp : Runs.Ordered t.ccc (p ++ [ch])) (hch : decomposeOne t ch = [ch]) :
    ∃ pre' tail', Composed t (p ++ [ch]) pre' tail' (composeStep t s ch) := by
  obtain ⟨comp, hfree, hc, hstep⟩ | ⟨-, hstep⟩ | ⟨h0, hstep⟩ := composeStep_cases (t := t) s ch
  · exact ⟨pre, tail, hstep ▸ hs.compose h hp hch hfree hc⟩
  · exact ⟨s.out, [], hstep ▸ hs.starter hp hch⟩
  · exact ⟨pre, tail ++ [ch], hstep ▸ hs.mark hp hch h0⟩

include h in
/-- The invariant holds behind any characters in canonical order that do not
decompose. -/
theorem composing_composed {c : Char} {cs : List Char} (hd : ∀ e ∈ c :: cs, decomposeOne t e = [e])
    (ho : Runs.Ordered t.ccc (c :: cs)) : ∃ pre tail, Composed t (c :: cs) pre tail (composing t c cs) := by
  induction cs using List.reverseRecOn with
  | nil =>
    refine ⟨[], [], rfl, rfl, ?_, fun m hm => absurd hm List.not_mem_nil, fun htail => absurd rfl htail⟩
    have hc : ([c] : List Char).flatMap (decomposeOne t) = [c] := flatMap_decomposeOne hd
    exact (congrArg _ hc).trans (Runs.order_of_ordered ho)
  | append_singleton cs ch ih =>
    rw [← List.cons_append] at hd ho ⊢
    obtain ⟨pre, tail, hs⟩ := ih (fun e he => hd e (List.mem_append_left _ he)) (List.isChain_append.mp ho).1
    rw [composing, List.foldl_concat, ← composing]
    exact composeStep_composed h hs ho (hd ch (by simp))

include h in
theorem composing_of_nfd {s : List Char} {c : Char} {p rest : List Char} (hs : nfd t s = c :: (p ++ rest)) :
    ∃ pre tail, Composed t (c :: p) pre tail (composing t c p) := by
  have ho : Runs.Ordered t.ccc (nfd t s) := by
    rw [nfd, canonicalOrder_eq]
    exact Runs.ordered_order _
  have hd : ∀ e ∈ nfd t s, decomposeOne t e = [e] := fun e he => decomposeOne_of_mem_nfd h he
  rw [hs, ← List.cons_append] at ho hd
  exact composing_composed h (fun e he => hd e (List.mem_append_left _ he)) (List.isChain_append.mp ho).1

/-! ### The law -/

include h in
/-- The composition keeps the canonical decomposition. -/
theorem nfd_nfc (s : List Char) : nfd t (nfc t s) = nfd t s := by
  cases hs : nfd t s with
  | nil =>
    have hnil : nfc t s = [] := by rw [nfc, ← nfd, hs]
    rw [hnil]
    rfl
  | cons c cs =>
    have hs' : nfd t s = c :: (cs ++ []) := by rw [hs, List.append_nil]
    obtain ⟨pre, tail, hc⟩ := composing_of_nfd h hs'
    rw [nfc_of_nfd t hs, nfd, canonicalOrder_eq, hc.order_eq]

include h in
/-- A character composes over marks of lower classes only. -/
theorem unblocked_of_composes {s : List Char} {c ch : Char} {p rest : List Char}
    (hs : nfd t s = c :: (p ++ ch :: rest)) (hch : Composes t (composing t c p) ch) :
    ∀ m ∈ (composing t c p).out.drop ((composing t c p).starterPos + 1), t.ccc m ≠ 0 ∧ t.ccc m < t.ccc ch := by
  obtain ⟨pre, tail, hc⟩ := composing_of_nfd h hs
  have hdrop : (composing t c p).out.drop ((composing t c p).starterPos + 1) = tail := by
    rw [hc.out_eq, hc.starterPos_eq]
    simp
  rw [hdrop]
  obtain ⟨comp, hcomp⟩ := hch
  obtain ⟨-, hfree, -, -⟩ | ⟨-, hstep⟩ | ⟨-, hstep⟩ := composeStep_cases (t := t) (composing t c p) ch
  · exact hc.unblocked hfree
  · -- a step that puts the character out makes the output longer
    have := congrArg (fun s => s.out.length) (hcomp.symm.trans hstep)
    simp at this
  · have := congrArg (fun s => s.out.length) (hcomp.symm.trans hstep)
    simp at this

include h in
/-- `nfc` keeps the canonical decomposition of a text, so it is idempotent; no
character of a class is lost or changes places with another of it, and none
composes with a starter behind a mark that blocks it. -/
theorem nfc_equivalent (s : List Char) :
    nfd t (nfc t s) = nfd t s ∧ nfc t (nfc t s) = nfc t s ∧
    (∀ k, ((nfc t s).flatMap (decomposeOne t)).filter (fun c => t.ccc c = k) =
      (s.flatMap (decomposeOne t)).filter fun c => t.ccc c = k) ∧
    ∀ c p ch rest, nfd t s = c :: (p ++ ch :: rest) → Composes t (composing t c p) ch →
      ∀ m ∈ (composing t c p).out.drop ((composing t c p).starterPos + 1), t.ccc m ≠ 0 ∧ t.ccc m < t.ccc ch := by
  have hnfd := nfd_nfc h s
  refine ⟨hnfd, nfc_congr t hnfd, fun k => ?_, fun c p ch rest hs => unblocked_of_composes h hs⟩
  have hk := congrArg (List.filter fun c => t.ccc c = k) hnfd
  rwa [nfd, nfd, canonicalOrder_eq, canonicalOrder_eq, Runs.filter_order, Runs.filter_order] at hk

/-- The tables as far as a circumflex behind a cedilla needs them. -/
def circumflexes : Tables where
  isLetter c := c.isAlpha || c == 'ê'
  isMark c := c == '\u0302' || c == '\u0327'
  isNumber := Char.isDigit
  ccc c := if c = '\u0302' then 230 else if c = '\u0327' then 202 else 0
  decompose1 _ := none
  decompose2 c := if c = 'ê' then some ('e', '\u0302') else none
  composed a b := if a = 'e' ∧ b = '\u0302' then some 'ê' else none
  depth c := if c = 'ê' then 1 else 0
  depth_decompose1 _ d h := absurd h.symm (Option.some_ne_none d)
  depth_decompose2 c a b h := by
    split_ifs at h with hc
    obtain ⟨rfl, rfl⟩ := Prod.mk.inj (Option.some.inj h)
    rw [hc]
    decide

theorem circumflexes_canonical : circumflexes.Canonical where
  composed_decompose a b c hc := by
    simp only [circumflexes] at hc
    split_ifs at hc with hab
    obtain rfl := Option.some.inj hc
    exact ⟨rfl, by rw [hab.1, hab.2]; rfl⟩
  composed_hangul a b c hc := by
    simp only [circumflexes] at hc
    split_ifs at hc with hab
    obtain rfl := Option.some.inj hc
    rfl
  jamo c jamo hj j hmem := by
    have hlt := (jamo_lt hj hmem).1
    have hne : j ≠ 'ê' := fun hje => absurd (hje ▸ hlt) (by decide)
    exact ⟨rfl, if_neg hne⟩

/-- The circumflex composes over the cedilla, which is of a lower class. -/
theorem nfc_equivalent_circumflexes :
    nfd circumflexes (nfc circumflexes ['e', '\u0327', '\u0302']) = ['e', '\u0327', '\u0302'] ∧
    nfc circumflexes (nfc circumflexes ['e', '\u0327', '\u0302']) = ['ê', '\u0327'] ∧
    circumflexes.ccc '\u0327' < circumflexes.ccc '\u0302' := by
  obtain ⟨hnfd, hnfc, -, hfree⟩ := nfc_equivalent circumflexes_canonical ['e', '\u0327', '\u0302']
  have hcedilla := hfree 'e' ['\u0327'] '\u0302' [] (by decide) ⟨'ê', rfl⟩ '\u0327' (by decide)
  exact ⟨hnfd.trans (by decide), hnfc.trans (by decide), hcedilla.2⟩

end Qwen
end Siphon
