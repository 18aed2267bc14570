/-
# What the reader accepts

`parse` takes the documents of `lax` (`parse_iff_lax`). That is RFC 8259 with
one thing left out on purpose, the escapes of lone surrogates, which stand for
no character, and three things let in: a raw control character in a string, a
sign `+` in an escape, and a negative fraction without digits before its
point. A text that is a document only by one of these three is `Loose`; on
every other text `parse` decides RFC 8259 with its surrogates paired.
-/
import Siphon.Pyjson.Complete

namespace Siphon
namespace Pyjson

/-- A document of the relaxed grammar, but not of the strict one. -/
def Loose (t : List Char) : Prop := (∃ v, Document lax t v) ∧ ¬∃ v, Document paired t v

/-- A text denotes one value at most. -/
theorem Document.value_unique {t : List Char} {v w : Value} (hv : Document lax t v) (hw : Document lax t w) :
    v = w := by
  have h := (parse_iff_lax.mpr hv).symm.trans (parse_iff_lax.mpr hw)
  exact Except.ok.inj h

/-- On a text that is not loose, `parse` returns a value exactly if the text
is a document that denotes it. -/
theorem parse_iff_document {t : List Char} (ht : ¬Loose t) (v : Value) :
    parse t = .ok v ↔ Document paired t v := by
  rw [parse_iff_lax]
  constructor
  · intro hv
    have hp : ∃ w, Document paired t w := by
      by_contra hn
      exact ht ⟨⟨v, hv⟩, hn⟩
    obtain ⟨w, hw⟩ := hp
    rw [hv.value_unique (hw.mono paired_le_lax)]
    exact hw
  · exact fun hv => hv.mono paired_le_lax

/-- A text with an escape and a number. -/
def sampleText : List Char := ['[', '"', '\\', 'u', '0', '0', '4', '1', '"', ',', ' ', '-', '1', '0', ']']

def sampleValue : Value := .array [.str ['A'], .int (-10)]

theorem document_sample : Document paired sampleText sampleValue := by
  have hnum : NumberText.Ok paired ⟨true, ['1', '0'], none, none⟩ :=
    ⟨List.all_eq_true.mp rfl, by decide, by decide, by decide, by simp, by simp, by simp, by simp, by simp⟩
  have hval : NumberText.Denotes paired ⟨true, ['1', '0'], none, none⟩ (.int (-10)) :=
    .int rfl rfl (by decide)
  have hchars : ∀ r, Chars paired ['A'] ('\\' :: 'u' :: (['0', '0', '4', '1'] ++ '"' :: r)) r := fun r =>
    .unicode (.inl ⟨rfl, by decide⟩) (.close r)
  refine ⟨sampleText, [], .nil _, .array (.element (.nil _) (.string (hchars _)) (.nil _) ?_), .nil _⟩
  exact .lastElement (.cons (by decide) (.nil _)) (.number [']'] hnum hval) (.nil _)

theorem parse_iff_document_sample : ¬Loose sampleText ∧ parse sampleText = .ok sampleValue := by
  have hl : ¬Loose sampleText := fun h => h.2 ⟨_, document_sample⟩
  exact ⟨hl, (parse_iff_document hl _).mpr document_sample⟩

/-- The escape of a lone surrogate is in the grammar of the RFC, and refused. -/
theorem parse_refuses_lone_surrogate :
    ¬∀ t, (∃ v, parse t = .ok v) ↔ ∃ v, Document rfc t v := by
  intro h
  have hdoc : Document rfc ['"', '\\', 'u', 'd', '8', '3', 'd', '"'] (.str ['\uFFFD']) := by
    have hchars : Chars rfc ['\uFFFD'] ('\\' :: 'u' :: (['d', '8', '3', 'd'] ++ ['"'])) [] :=
      .lone (v := 0xd83d) rfl (.inl ⟨rfl, by decide⟩) (by decide) (by decide) (.close [])
    exact ⟨_, [], .nil _, .string hchars, .nil _⟩
  have herr : parse ['"', '\\', 'u', 'd', '8', '3', 'd', '"'] = .error (.literal ['\\', 'u'] 7) := rfl
  obtain ⟨v, hv⟩ := (h _).mpr ⟨_, hdoc⟩
  rw [herr] at hv
  cases hv

end Pyjson
end Siphon
