/-
# Where the parser panics

Two error messages of `parse_one` quote the first 24 bytes of the text they
are about. Where a character crosses that boundary the slice is a panic: the
parser reads calls and parameters until one is malformed, and panics if the
text at fault is a parameter without a tag, or a key without an end, that is
longer than the quotation and has no boundary there (`Stuck`). On every other
text it returns (`parse_returns_iff`).

Key definitions: `Cuts`, `StuckParameters`, `Stuck`.
Key theorems: `quote_eq_panic_iff`, `parseParameters_eq_panic_iff`, `parseOne_eq_panic_iff`,
`parse_returns_iff`.
-/
import Siphon.Chat.RoundTrip
import Siphon.Pyjson.Complete

namespace Siphon
namespace Chatparse

open Fallible
open Pyjson (bytes takeBytes)
open Search (strip length_of_dropInfix)

/-- A text longer than a quotation, with a character across its end. -/
def Cuts (s : List Char) : Prop := 24 < bytes s ∧ ∀ p, p <+: s → bytes p ≠ 24

/-- A whole parameter and what stands behind it. -/
def Parameter (rest rest' : List Char) : Prop :=
  ∃ r key r₁ value r₂, rest.dropPrefix? "<parameter=".toList = some r ∧ r.dropInfix? ">\n".toList = some (key, r₁) ∧
    (r₁.dropInfix? "\n</parameter>\n".toList).or (r₁.dropInfix? "\n</parameter>".toList) = some (value, r₂) ∧
    rest' = r₂.dropWhile (· = '\n')

/-- Whole parameters to the end. -/
inductive Parameters : List Char → Prop
  | nil : Parameters []
  | next {rest rest'} (h : Parameter rest rest') (hs : Parameters rest') : Parameters rest

/-- Whole parameters, and then a text whose quotation is cut. -/
inductive StuckParameters : List Char → Prop
  | tag {rest} (htag : rest.dropPrefix? "<parameter=".toList = none) (hcut : Cuts rest) : StuckParameters rest
  | key {rest r} (htag : rest.dropPrefix? "<parameter=".toList = some r) (hkey : r.dropInfix? ">\n".toList = none)
      (hcut : Cuts r) : StuckParameters rest
  | next {rest rest'} (h : Parameter rest rest') (hs : StuckParameters rest') : StuckParameters rest

/-- A block with the name of a function and its closing tag, and the
parameters between them. -/
def Header (block params : List Char) : Prop :=
  ∃ r name r₁ r₂, (strip (· = '\n') block).dropPrefix? "<function=".toList = some r ∧
    r.dropInfix? ">\n".toList = some (name, r₁) ∧ name ≠ [] ∧
    (r₁.rdropWhile (· = '\n')).dropSuffix? "</function>".toList = some r₂ ∧ params = strip (· = '\n') r₂

/-- The first block of a text and what stands behind it. -/
def Block (text block rest : List Char) : Prop :=
  ∃ head after block', text.dropInfix? "<tool_call>".toList = some (head, after) ∧
    after.dropInfix? "</tool_call>".toList = some (block', rest) ∧ block = strip (· = '\n') block'

/-- Whole calls, and then one whose parameters are stuck. -/
inductive Stuck : List Char → Prop
  | here {text block rest params} (hb : Block text block rest) (hh : Header block params)
      (hp : StuckParameters params) : Stuck text
  | later {text block rest params} (hb : Block text block rest) (hh : Header block params) (hp : Parameters params)
      (hs : Stuck rest) : Stuck text

theorem not_stuckParameters_nil : ¬StuckParameters [] := by
  rintro (⟨-, hcut⟩ | ⟨htag, -, -⟩ | ⟨⟨r, _, _, _, _, htag, -⟩, -⟩)
  · exact absurd hcut.1 (by decide)
  · cases htag
  · cases htag

/-! ### Quotations -/

theorem takeBytes_eq_none_iff {n : ℕ} {s : List Char} : takeBytes n s = none ↔ ∀ p, p <+: s → bytes p ≠ n := by
  constructor
  · rintro h p ⟨r, rfl⟩ rfl
    rw [Pyjson.takeBytes_append] at h
    cases h
  · intro h
    rw [Option.eq_none_iff_forall_not_mem]
    rintro ⟨p, r⟩ hpr
    obtain ⟨rfl, hn⟩ := Pyjson.takeBytes_eq_some hpr
    exact h p (List.prefix_append p r) hn

theorem quote_eq_panic_iff {s : List Char} : quote s = .error .panic ↔ Cuts s := by
  have hquote : quote s = .error .panic ↔ takeBytes (min (bytes s) 24) s = none := by
    unfold quote
    cases takeBytes (min (bytes s) 24) s with
    | none => exact ⟨fun _ => rfl, fun _ => rfl⟩
    | some p => exact ⟨fun h => (nomatch h), fun h => (nomatch h)⟩
  rw [hquote, takeBytes_eq_none_iff]
  unfold Cuts
  by_cases hlong : 24 < bytes s
  · rw [min_eq_right (Nat.le_of_lt hlong)]
    exact ⟨fun h => ⟨hlong, h⟩, fun h => h.2⟩
  · rw [min_eq_left (Nat.le_of_not_lt hlong)]
    exact ⟨fun h => absurd rfl (h s List.prefix_rfl), fun h => absurd h.1 hlong⟩

theorem quoting_eq_panic_iff {e : List Char → CallError} {s : List Char} : quoting e s = .panic ↔ Cuts s := by
  rw [← quote_eq_panic_iff]
  unfold quoting
  cases hq : quote s with
  | ok head => exact ⟨fun h => (nomatch h), fun h => (nomatch h)⟩
  | error stop => exact ⟨congrArg _, Except.error.inj⟩

/-! ### Parameters -/

theorem parseParameter_ok_iff {rest rest' : List Char} :
    (∃ argument, parseParameter rest = .ok (argument, rest')) ↔ Parameter rest rest' := by
  unfold parseParameter Parameter
  simp only [bind_eq_ok_iff, orElse_eq_ok_iff, Prod.exists]
  constructor
  · rintro ⟨k, v, r, h1, key, r₁, h2, value, r₂, h3, h4⟩
    exact ⟨r, key, r₁, value, r₂, h1, h2, h3, (Prod.mk.inj (Except.ok.inj h4)).2.symm⟩
  · rintro ⟨r, key, r₁, value, r₂, h1, h2, h3, rfl⟩
    exact ⟨key, value, r, h1, key, r₁, h2, value, r₂, h3, rfl⟩

theorem parseParameter_eq_panic_iff {rest : List Char} : parseParameter rest = .error .panic ↔
    rest.dropPrefix? "<parameter=".toList = none ∧ Cuts rest ∨
      ∃ r, rest.dropPrefix? "<parameter=".toList = some r ∧ r.dropInfix? ">\n".toList = none ∧ Cuts r := by
  unfold parseParameter
  simp only [bind_eq_error_iff, orElse_eq_ok_iff, orElse_eq_error_iff, quoting_eq_panic_iff, reduceCtorEq, and_false,
    exists_false, or_false]

/-- A parameter takes a part of the text. -/
theorem Parameter.length_lt {rest rest' : List Char} (h : Parameter rest rest') : rest'.length < rest.length := by
  obtain ⟨r, key, r₁, value, r₂, h1, h2, h3, rfl⟩ := h
  obtain ⟨p, rfl, hp⟩ := List.dropPrefix?_eq_some_iff.mp h1
  have hsame : p.length = 11 := congrArg List.length (eq_of_beq hp)
  have hkey := length_of_dropInfix h2
  have hvalue : r₂.length ≤ r₁.length := by
    obtain h3 | h3 := Option.or_eq_some_iff.mp h3
    · have hlen := length_of_dropInfix h3
      omega
    · have hlen := length_of_dropInfix h3.2
      omega
  have hdrop := (List.dropWhile_suffix (p := fun c => decide (c = '\n')) (l := r₂)).length_le
  rw [List.length_append]
  omega

/-- What the loop needs to end well. The induction is on the passes, which a
parameter takes away at least as fast as the text. -/
theorem parseParameters_ok_iff : ∀ {fuel : ℕ} {arguments : List (List Char × List Char)} {rest : List Char},
    rest.length ≤ fuel → ((∃ as, parseParameters fuel arguments rest = .ok as) ↔ Parameters rest)
  | 0, arguments, rest, h => by
    rw [List.eq_nil_of_length_eq_zero (Nat.le_zero.mp h)]
    exact ⟨fun _ => .nil, fun _ => ⟨_, rfl⟩⟩
  | fuel + 1, arguments, rest, h => by
    rw [parseParameters]
    by_cases hnil : rest = []
    · rw [if_pos hnil, hnil]
      exact ⟨fun _ => .nil, fun _ => ⟨_, rfl⟩⟩
    · rw [if_neg hnil]
      constructor
      · rintro ⟨as, has⟩
        obtain ⟨⟨argument, rest'⟩, hparam, hloop⟩ := bind_eq_ok has
        have hp := parseParameter_ok_iff.mp ⟨argument, hparam⟩
        have hlt := hp.length_lt
        exact .next hp ((parseParameters_ok_iff (by omega)).mp ⟨as, hloop⟩)
      · rintro (_ | ⟨hp, hs⟩)
        · exact absurd rfl hnil
        · have hlt := hp.length_lt
          obtain ⟨argument, hparam⟩ := parseParameter_ok_iff.mpr hp
          rw [hparam]
          exact (parseParameters_ok_iff (by omega)).mpr hs

theorem parseParameters_eq_panic_iff : ∀ {fuel : ℕ} {arguments : List (List Char × List Char)} {rest : List Char},
    rest.length ≤ fuel → (parseParameters fuel arguments rest = .error .panic ↔ StuckParameters rest)
  | 0, arguments, rest, h => by
    rw [List.eq_nil_of_length_eq_zero (Nat.le_zero.mp h)]
    constructor
    · rintro ⟨⟩
    · intro hstuck
      exact absurd hstuck not_stuckParameters_nil
  | fuel + 1, arguments, rest, h => by
    rw [parseParameters]
    by_cases hnil : rest = []
    · rw [if_pos hnil, hnil]
      constructor
      · rintro ⟨⟩
      · intro hstuck
        exact absurd hstuck not_stuckParameters_nil
    · rw [if_neg hnil, bind_eq_error_iff, parseParameter_eq_panic_iff]
      constructor
      · rintro ((⟨htag, hcut⟩ | ⟨r, htag, hkey, hcut⟩) | ⟨⟨argument, rest'⟩, hparam, hloop⟩)
        · exact .tag htag hcut
        · exact .key htag hkey hcut
        · have hp := parseParameter_ok_iff.mp ⟨argument, hparam⟩
          have hlt := hp.length_lt
          exact .next hp ((parseParameters_eq_panic_iff (by omega)).mp hloop)
      · rintro (⟨htag, hcut⟩ | ⟨htag, hkey, hcut⟩ | ⟨hp, hs⟩)
        · exact .inl (.inl ⟨htag, hcut⟩)
        · exact .inl (.inr ⟨_, htag, hkey, hcut⟩)
        · have hlt := hp.length_lt
          obtain ⟨argument, hparam⟩ := parseParameter_ok_iff.mpr hp
          exact .inr ⟨(argument, _), hparam, (parseParameters_eq_panic_iff (by omega)).mpr hs⟩

/-! ### Calls -/

/-- Of a block with a header the parameters are left to read. -/
theorem parseOne_of_header {block params : List Char} (h : Header block params) :
    ∃ name, parseOne block = (parseParameters params.length [] params >>= fun as => .ok ⟨name, as⟩) := by
  obtain ⟨r, name, r₁, r₂, h1, h2, hname, h3, rfl⟩ := h
  exact ⟨name, Chat.parseOne_eq h1 h2 hname h3⟩

theorem parseOne_ok_iff {block : List Char} :
    (∃ call, parseOne block = .ok call) ↔ ∃ params, Header block params ∧ Parameters params := by
  constructor
  · rintro ⟨call, h⟩
    obtain ⟨r, h1, h⟩ := bind_eq_ok h
    obtain ⟨⟨name, r₁⟩, h2, h⟩ := bind_eq_ok h
    dsimp only at h
    by_cases hname : name = []
    · rw [if_pos hname] at h
      cases h
    · rw [if_neg hname] at h
      obtain ⟨r₂, h3, h⟩ := bind_eq_ok h
      obtain ⟨as, h4, -⟩ := bind_eq_ok h
      exact ⟨_, ⟨r, name, r₁, r₂, orElse_eq_ok h1, orElse_eq_ok h2, hname, orElse_eq_ok h3, rfl⟩,
        (parseParameters_ok_iff (Nat.le_refl _)).mp ⟨as, h4⟩⟩
  · rintro ⟨params, hh, hp⟩
    obtain ⟨as, has⟩ := (@parseParameters_ok_iff params.length [] params (Nat.le_refl _)).mpr hp
    obtain ⟨name, hcall⟩ := parseOne_of_header hh
    rw [hcall, has]
    exact ⟨_, rfl⟩

theorem parseOne_eq_panic_iff {block : List Char} :
    parseOne block = .error .panic ↔ ∃ params, Header block params ∧ StuckParameters params := by
  constructor
  · intro h
    unfold parseOne at h
    simp only [bind_eq_error_iff, orElse_eq_ok_iff, orElse_eq_error_iff, reduceCtorEq, and_false, false_or] at h
    obtain ⟨r, h1, ⟨name, r₁⟩, h2, h⟩ := h
    by_cases hname : name = []
    · rw [if_pos hname] at h
      cases h
    · rw [if_neg hname] at h
      obtain h | ⟨r₂, h3, h⟩ := bind_eq_error_iff.mp h
      · exact nomatch (orElse_eq_error_iff.mp h).2
      · obtain h | ⟨as, -, h⟩ := bind_eq_error_iff.mp h
        · exact ⟨_, ⟨r, name, r₁, r₂, h1, h2, hname, orElse_eq_ok h3, rfl⟩,
            (parseParameters_eq_panic_iff (Nat.le_refl _)).mp h⟩
        · cases h
  · rintro ⟨params, hh, hp⟩
    obtain ⟨name, hcall⟩ := parseOne_of_header hh
    rw [hcall, (parseParameters_eq_panic_iff (Nat.le_refl _)).mpr hp]
    rfl

/-- A block takes a part of the text. -/
theorem Block.length_lt {text block rest : List Char} (h : Block text block rest) : rest.length < text.length := by
  obtain ⟨head, after, block', h1, h2, -⟩ := h
  have hopen := length_of_dropInfix h1
  have hclose := length_of_dropInfix h2
  have htag : "<tool_call>".toList.length = 11 := rfl
  omega

theorem Block.unique {text block block' rest rest' : List Char} (h : Block text block rest)
    (h' : Block text block' rest') : block = block' ∧ rest = rest' := by
  obtain ⟨head, after, b, h1, h2, rfl⟩ := h
  obtain ⟨head', after', b', h1', h2', rfl⟩ := h'
  obtain ⟨-, rfl⟩ := Prod.mk.inj (Option.some.inj (h1.symm.trans h1'))
  obtain ⟨rfl, rfl⟩ := Prod.mk.inj (Option.some.inj (h2.symm.trans h2'))
  exact ⟨rfl, rfl⟩

/-- One pass of the loop over the blocks. -/
theorem parseCalls_block {fuel : ℕ} {out : List FunctionCall} {text block rest : List Char} (h : Block text block rest) :
    parseCalls (fuel + 1) out text = (parseOne block >>= fun call => parseCalls fuel (out ++ [call]) rest) := by
  obtain ⟨head, after, block', h1, h2, rfl⟩ := h
  rw [parseCalls, h1]
  dsimp only
  rw [h2]

/-- Without a block the loop ends, and not in a panic. -/
theorem parseCalls_noBlock {fuel : ℕ} {out : List FunctionCall} {text : List Char}
    (h : ∀ block rest, ¬Block text block rest) :
    parseCalls (fuel + 1) out text ≠ .error .panic := by
  rw [parseCalls]
  cases h1 : text.dropInfix? "<tool_call>".toList with
  | none => rintro ⟨⟩
  | some p =>
    obtain ⟨head, after⟩ := p
    cases h2 : after.dropInfix? "</tool_call>".toList with
    | none =>
      dsimp only
      rw [h2]
      rintro ⟨⟩
    | some p => exact absurd ⟨head, after, p.1, h1, h2, rfl⟩ (h _ p.2)

theorem parseCalls_eq_panic_iff : ∀ {fuel : ℕ} {out : List FunctionCall} {text : List Char}, text.length < fuel →
    (parseCalls fuel out text = .error .panic ↔ Stuck text)
  | fuel + 1, out, text, h => by
    by_cases hblock : ∃ block rest, Block text block rest
    · obtain ⟨block, rest, hb⟩ := hblock
      have hlt := hb.length_lt
      rw [parseCalls_block hb, bind_eq_error_iff, parseOne_eq_panic_iff]
      constructor
      · rintro (⟨params, hh, hp⟩ | ⟨call, hcall, hloop⟩)
        · exact .here hb hh hp
        · obtain ⟨params, hh, hp⟩ := parseOne_ok_iff.mp ⟨call, hcall⟩
          exact .later hb hh hp ((parseCalls_eq_panic_iff (by omega)).mp hloop)
      · rintro (⟨hb', hh, hp⟩ | ⟨hb', hh, hp, hs⟩)
        · obtain ⟨rfl, rfl⟩ := hb.unique hb'
          exact .inl ⟨_, hh, hp⟩
        · obtain ⟨rfl, rfl⟩ := hb.unique hb'
          obtain ⟨call, hcall⟩ := parseOne_ok_iff.mpr ⟨_, hh, hp⟩
          exact .inr ⟨call, hcall, (parseCalls_eq_panic_iff (by omega)).mpr hs⟩
    · push Not at hblock
      refine ⟨fun hpanic => absurd hpanic (parseCalls_noBlock hblock), ?_⟩
      rintro (⟨hb, -, -⟩ | ⟨hb, -, -, -⟩)
      · exact absurd hb (hblock _ _)
      · exact absurd hb (hblock _ _)

/-- **When the parser returns.** `parse_tool_calls` returns exactly on the
texts that do not get stuck, and `parse_assistant` exactly where what it looks
for calls in does not. -/
theorem parse_returns_iff (text : List Char) : (parseToolCalls text ≠ .error .panic ↔ ¬Stuck text) ∧
    ((∃ reply, parseAssistant text = some reply) ↔ ¬Stuck (splitThink text).2) := by
  have hcalls : ∀ t, parseToolCalls t = .error .panic ↔ Stuck t := fun t => parseCalls_eq_panic_iff (Nat.lt_succ_self _)
  refine ⟨(hcalls text).not, ?_⟩
  rw [← hcalls, ← Option.isSome_iff_exists]
  unfold parseAssistant
  dsimp only
  obtain ⟨e | _⟩ | calls := parseToolCalls (splitThink text).2
  · exact ⟨fun _ h => (nomatch h), fun _ => rfl⟩
  · exact ⟨fun h => (nomatch h), fun h => absurd rfl h⟩
  · exact ⟨fun _ h => (nomatch h), fun _ => rfl⟩

/-- A call whose parameters are a text with accents. -/
def accentedCall : List Char :=
  "<tool_call>\n<function=f>\nx".toList ++ List.replicate 12 'é' ++ "\n</function>\n</tool_call>".toList

/-- The quotation of the parameters ends inside the last accent. -/
theorem accentedCall_panics : ¬∀ text, parseToolCalls text ≠ .error .panic ∧ ∃ reply, parseAssistant text = some reply := by
  intro h
  exact (h accentedCall).1 (by decide)

end Chatparse
end Siphon
