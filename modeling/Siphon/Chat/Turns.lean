/-
# The turns of a conversation

What the template writes for the content of each message, without the loop:
the images and videos of a conversation are numbered in the order in which
they stand in it, and an answer is fresh if no later message of the user asks
something. The scan for the last query writes the contents without counting,
so its labels have other numbers; whether a message only hands back what a
tool said does not depend on them (`Alike.wraps`).

Key definitions: `contentText`, `Turn`, `turns`, `Writes`.
Key theorems: `renderContent_turn`, `Writes.alike`, `Alike.wraps`, `queryIndex_fresh`.
-/
import Siphon.Chat.Split

namespace Siphon
namespace Chat

open Fallible Search
open Pyjson (showNat)

/-! ### Numbered parts -/

def Part.isImage : Part → Bool
  | .image => true
  | _ => false

def Part.isVideo : Part → Bool
  | .video => true
  | _ => false

/-- An image with its number. -/
def imageText (avi : Bool) (n : ℕ) : List Char :=
  (if avi then "Picture ".toList ++ showNat n ++ ": ".toList else []) ++
    "<|vision_start|><|image_pad|><|vision_end|>".toList

/-- A video with its number. -/
def videoText (avi : Bool) (n : ℕ) : List Char :=
  (if avi then "Video ".toList ++ showNat n ++ ": ".toList else []) ++
    "<|vision_start|><|video_pad|><|vision_end|>".toList

/-- A part behind the parts `seen`: the first image has the number one. -/
def partText (avi : Bool) (seen : List Part) : Part → List Char
  | .text t => t
  | .image => imageText avi (seen.countP Part.isImage + 1)
  | .video => videoText avi (seen.countP Part.isVideo + 1)
  | .other => []

def partsText (avi : Bool) : List Part → List Part → List Char
  | _, [] => []
  | seen, p :: ps => partText avi seen p ++ partsText avi (seen ++ [p]) ps

def Content.partList : Content → List Part
  | .parts ps => ps
  | _ => []

/-- A content behind the parts `seen`. -/
def contentText (avi : Bool) (seen : List Part) : Content → List Char
  | .text s => s
  | .parts ps => partsText avi seen ps
  | _ => []

/-- How many images and videos there are. -/
def counted (ps : List Part) : Counts := ⟨ps.countP Part.isImage, ps.countP Part.isVideo⟩

/-! ### Turns -/

/-- A message and what is written for its content. -/
structure Turn where
  message : Message
  content : List Char
  /-- No later message of the user asks something. -/
  fresh : Bool

/-- A message of the user that is not a wrapped response asks something. -/
def Turn.asks (t : Turn) : Bool := t.message.role = .user ∧ ¬wrapsResponse t.content

def turns (avi : Bool) : List Part → List Message → List Turn
  | _, [] => []
  | seen, m :: ms =>
    let later := turns avi (seen ++ m.content.partList) ms
    ⟨m, jinjaTrim (contentText avi seen m.content), !later.any Turn.asks⟩ :: later

/-! ### Counting -/

theorem renderPart_turn {avi : Bool} {seen : List Part} {p : Part} {t : List Char} {k : Counts}
    (h : renderPart true false avi (counted seen) p = .ok (t, k)) : t = partText avi seen p ∧ k = counted (seen ++ [p]) := by
  unfold counted
  rw [List.countP_append, List.countP_append]
  cases p with
  | text s =>
    obtain ⟨rfl, rfl⟩ := Prod.mk.inj (Except.ok.inj h)
    exact ⟨rfl, rfl⟩
  | image =>
    obtain ⟨rfl, rfl⟩ := Prod.mk.inj (Except.ok.inj h)
    exact ⟨rfl, rfl⟩
  | video =>
    obtain ⟨rfl, rfl⟩ := Prod.mk.inj (Except.ok.inj h)
    exact ⟨rfl, rfl⟩
  | other => cases h

theorem renderParts_turn {avi : Bool} : ∀ {ps seen : List Part} {out t : List Char} {k : Counts},
    renderParts true false avi ps out (counted seen) = .ok (t, k) →
      t = out ++ partsText avi seen ps ∧ k = counted (seen ++ ps)
  | [], seen, out, t, k, h => by
    obtain ⟨rfl, rfl⟩ := Prod.mk.inj (Except.ok.inj h)
    rw [partsText, List.append_nil, List.append_nil]
    exact ⟨rfl, rfl⟩
  | p :: ps, seen, out, t, k, h => by
    obtain ⟨⟨u, k₁⟩, h1, h2⟩ := bind_eq_ok h
    obtain ⟨rfl, rfl⟩ := renderPart_turn h1
    obtain ⟨rfl, rfl⟩ := renderParts_turn h2
    rw [partsText, List.append_assoc, List.append_assoc]
    exact ⟨rfl, rfl⟩

/-- The main loop writes a content as it is numbered. -/
theorem renderContent_turn {avi : Bool} {seen : List Part} {c : Content} {t : List Char} {k : Counts}
    (h : renderContent true false avi c (counted seen) = .ok (t, k)) :
    t = contentText avi seen c ∧ k = counted (seen ++ c.partList) := by
  cases c with
  | text s =>
    obtain ⟨rfl, rfl⟩ := Prod.mk.inj (Except.ok.inj h)
    exact ⟨rfl, congrArg counted (List.append_nil seen).symm⟩
  | none =>
    obtain ⟨rfl, rfl⟩ := Prod.mk.inj (Except.ok.inj h)
    exact ⟨rfl, congrArg counted (List.append_nil seen).symm⟩
  | unsupported => cases h
  | parts ps => exact renderParts_turn h

/-! ### Labels and the scan -/

/-- A text of parts with any numbers. -/
inductive Writes (avi : Bool) : List Part → List Char → Prop
  | nil : Writes avi [] []
  | text {ps t} (s : List Char) (h : Writes avi ps t) : Writes avi (.text s :: ps) (s ++ t)
  | image {ps t} (n : ℕ) (h : Writes avi ps t) : Writes avi (.image :: ps) (imageText avi n ++ t)
  | video {ps t} (n : ℕ) (h : Writes avi ps t) : Writes avi (.video :: ps) (videoText avi n ++ t)

/-- A text that begins and ends as the mark of an image or a video does. -/
def Marked (x : List Char) : Prop :=
  (∃ c r, x = c :: r ∧ (c = 'P' ∨ c = 'V' ∨ c = '<' ∧ r.head? = some '|')) ∧ ∃ s, x = s ++ "|>".toList

/-- Two texts that differ between marks at most. -/
def Alike (t t' : List Char) : Prop :=
  t = t' ∨ ∃ a x x' b, t = a ++ x ++ b ∧ t' = a ++ x' ++ b ∧ Marked x ∧ Marked x'

theorem marked_imageText (avi : Bool) (n : ℕ) : Marked (imageText avi n) := by
  unfold imageText
  cases avi with
  | false => exact ⟨⟨'<', _, rfl, .inr (.inr ⟨rfl, rfl⟩)⟩, "<|vision_start|><|image_pad|><|vision_end".toList, rfl⟩
  | true =>
    refine ⟨⟨'P', _, rfl, .inl rfl⟩,
      "Picture ".toList ++ showNat n ++ ": ".toList ++ "<|vision_start|><|image_pad|><|vision_end".toList, ?_⟩
    rw [List.append_assoc _ _ "|>".toList]
    rfl

theorem marked_videoText (avi : Bool) (n : ℕ) : Marked (videoText avi n) := by
  unfold videoText
  cases avi with
  | false => exact ⟨⟨'<', _, rfl, .inr (.inr ⟨rfl, rfl⟩)⟩, "<|vision_start|><|video_pad|><|vision_end".toList, rfl⟩
  | true =>
    refine ⟨⟨'V', _, rfl, .inr (.inl rfl)⟩,
      "Video ".toList ++ showNat n ++ ": ".toList ++ "<|vision_start|><|video_pad|><|vision_end".toList, ?_⟩
    rw [List.append_assoc _ _ "|>".toList]
    rfl

/-- From one mark to the end of another. -/
theorem Marked.join {x y : List Char} (hx : Marked x) (a : List Char) (hy : Marked y) : Marked (x ++ a ++ y) := by
  obtain ⟨⟨c, r, rfl, hc⟩, s, hs⟩ := hx
  obtain ⟨-, s', rfl⟩ := hy
  refine ⟨⟨c, r ++ a ++ (s' ++ "|>".toList), rfl, ?_⟩, c :: r ++ a ++ s', (List.append_assoc ..).symm⟩
  obtain hc | hc | ⟨hc, hr⟩ := hc
  · exact .inl hc
  · exact .inr (.inl hc)
  · obtain ⟨r', rfl⟩ := List.head?_eq_some_iff.mp hr
    exact .inr (.inr ⟨hc, rfl⟩)

theorem Alike.prepend {t t' : List Char} (h : Alike t t') (s : List Char) : Alike (s ++ t) (s ++ t') := by
  obtain rfl | ⟨a, x, x', b, rfl, rfl, hx, hx'⟩ := h
  · exact .inl rfl
  · exact .inr ⟨s ++ a, x, x', b, by simp only [List.append_assoc], by simp only [List.append_assoc], hx, hx'⟩

theorem Alike.mark {t t' m m' : List Char} (h : Alike t t') (hm : Marked m) (hm' : Marked m') :
    Alike (m ++ t) (m' ++ t') := by
  obtain rfl | ⟨a, x, x', b, rfl, rfl, hx, hx'⟩ := h
  · exact .inr ⟨[], m, m', t, rfl, rfl, hm, hm'⟩
  · exact .inr ⟨[], m ++ a ++ x, m' ++ a ++ x', b, by simp only [List.append_assoc, List.nil_append],
      by simp only [List.append_assoc, List.nil_append], hm.join a hx, hm'.join a hx'⟩

/-- Two texts of the same parts differ between marks at most. -/
theorem Writes.alike {avi : Bool} {ps : List Part} {t t' : List Char} (h : Writes avi ps t) (h' : Writes avi ps t') :
    Alike t t' := by
  induction h generalizing t' with
  | nil =>
    cases h'
    exact .inl rfl
  | text s _ ih =>
    obtain _ | ⟨_, h'⟩ := h'
    exact (ih h').prepend s
  | image n _ ih =>
    obtain _ | _ | ⟨n', h'⟩ := h'
    exact (ih h').mark (marked_imageText avi n) (marked_imageText avi n')
  | video n _ ih =>
    obtain _ | _ | _ | ⟨n', h'⟩ := h'
    exact (ih h').mark (marked_videoText avi n) (marked_videoText avi n')

/-- A text is trimmed around its marks. -/
theorem Marked.trim {x : List Char} (hx : Marked x) (a b : List Char) :
    jinjaTrim (a ++ x ++ b) = a.dropWhile isPythonSpace ++ x ++ b.rdropWhile isPythonSpace := by
  obtain ⟨⟨c, r, hxr, hc⟩, s, hs⟩ := hx
  have hhead : isPythonSpace c = false := by
    obtain rfl | rfl | ⟨rfl, -⟩ := hc <;> decide
  have htight : Tight isPythonSpace (a.dropWhile isPythonSpace ++ x ++ b.rdropWhile isPythonSpace) := by
    constructor
    · intro y z hy
      cases ha : a.dropWhile isPythonSpace with
      | nil =>
        rw [ha, hxr, List.nil_append, List.cons_append] at hy
        rw [← (List.cons.inj hy).1, hhead]
      | cons d w =>
        rw [ha, List.cons_append, List.cons_append] at hy
        have hd := List.head_dropWhile_not isPythonSpace (l := a) (by rw [ha]; exact List.cons_ne_nil d w)
        simp only [ha, List.head_cons] at hd
        rw [← (List.cons.inj hy).1, hd]
    · intro y z hy
      obtain hb | ⟨w, d, hb⟩ := List.eq_nil_or_concat (b.rdropWhile isPythonSpace)
      · rw [hb, List.append_nil, hs, show s ++ "|>".toList = s ++ ['|'] ++ ['>'] by simp, ← List.append_assoc] at hy
        rw [← List.singleton_inj.mp (List.append_inj' hy rfl).2]
        rfl
      · have hd := List.rdropWhile_last_not isPythonSpace b (by rw [hb]; simp)
        simp only [hb, List.concat_eq_append, List.getLast_append_singleton] at hd
        rw [hb, List.concat_eq_append, ← List.append_assoc] at hy
        rw [← List.singleton_inj.mp (List.append_inj' hy rfl).2]
        exact Bool.not_eq_true _ ▸ hd
  have hwhole : a ++ x ++ b = a.takeWhile isPythonSpace ++
      (a.dropWhile isPythonSpace ++ x ++ b.rdropWhile isPythonSpace) ++ b.rtakeWhile isPythonSpace := by
    conv_lhs => rw [← List.takeWhile_append_dropWhile (p := isPythonSpace) (l := a),
      ← List.rdropWhile_append_rtakeWhile (p := isPythonSpace) (l := b)]
    simp only [List.append_assoc]
  unfold jinjaTrim
  rw [hwhole]
  exact strip_unique (fun _ hc => List.mem_takeWhile_imp hc) (fun _ hc => List.mem_rtakeWhile_imp hc) htight

/-- The opening tag of a response cannot reach into a mark. -/
theorem Marked.prefix_iff {x : List Char} (hx : Marked x) (a b : List Char) :
    "<tool_response>".toList <+: a ++ x ++ b ↔ "<tool_response>".toList <+: a := by
  have htails : ∀ s ∈ "<tool_response>".toList.tails, s.head? ≠ some 'P' ∧ s.head? ≠ some 'V' ∧
      (s.head? = some '<' → s.tail.head? = some 't') := by decide
  rw [List.append_assoc]
  refine ⟨fun h => ?_, fun h => h.trans (List.prefix_append a _)⟩
  obtain h1 | ⟨p, hp⟩ := List.prefix_or_prefix_of_prefix h (List.prefix_append a _)
  · exact h1
  · rw [← hp, List.prefix_append_right_inj] at h
    have hnot := htails p ((List.mem_tails _ _).mpr ⟨a, hp⟩)
    obtain ⟨⟨c, r, rfl, hc⟩, -⟩ := hx
    cases p with
    | nil => exact ⟨[], by rw [List.append_nil, ← hp, List.append_nil]⟩
    | cons d w =>
      rw [List.cons_append, List.cons_prefix_cons] at h
      obtain ⟨rfl, hw⟩ := h
      obtain rfl | rfl | ⟨rfl, hr⟩ := hc
      · exact absurd rfl hnot.1
      · exact absurd rfl hnot.2.1
      · obtain ⟨r', rfl⟩ := List.head?_eq_some_iff.mp hr
        obtain ⟨w', rfl⟩ := List.head?_eq_some_iff.mp (hnot.2.2 rfl)
        exact absurd (List.cons_prefix_cons.mp hw).1 (by decide)

/-- Nor can the closing tag. -/
theorem Marked.suffix_iff {x : List Char} (hx : Marked x) (a b : List Char) :
    "</tool_response>".toList <:+ a ++ x ++ b ↔ "</tool_response>".toList <:+ b := by
  have hinits : ∀ s ∈ "</tool_response>".toList.inits, s ≠ [] → s.getLast? = some '>' →
      s = "</tool_response".toList ++ ['>'] := by decide
  refine ⟨fun h => ?_, fun h => h.trans (List.suffix_append _ b)⟩
  obtain h1 | ⟨p, hp⟩ := List.suffix_or_suffix_of_suffix h (List.suffix_append _ b)
  · exact h1
  · rw [← hp, List.suffix_append_self_iff] at h
    obtain ⟨-, s, rfl⟩ := hx
    obtain rfl | hne := eq_or_ne p []
    · exact ⟨[], hp.symm⟩
    · have hlast : p.getLast? = some '>' := by
        obtain ⟨z, hz⟩ := h
        have hlast := congrArg List.getLast? hz
        rw [List.getLast?_append_of_ne_nil z hne, ← List.append_assoc, getLast_append rfl] at hlast
        exact hlast
      obtain rfl := hinits p ((List.mem_inits _ _).mpr ⟨b, hp⟩) hne hlast
      have hp2 : ("e>".toList : List Char) <:+ a ++ (s ++ "|>".toList) := by
        refine List.IsSuffix.trans ⟨"</tool_respons".toList, by decide⟩ h
      rw [← List.append_assoc] at hp2
      exact absurd (List.suffix_of_suffix_length_le hp2 (List.suffix_append _ _) (by decide)) (by decide)

/-- Labels do not matter for a wrapped response. -/
theorem Alike.wraps {t t' : List Char} (h : Alike t t') : wrapsResponse (jinjaTrim t) = wrapsResponse (jinjaTrim t') := by
  obtain rfl | ⟨a, x, x', b, rfl, rfl, hx, hx'⟩ := h
  · rfl
  · unfold wrapsResponse
    rw [hx.trim, hx'.trim, decide_eq_decide, hx.prefix_iff, hx'.prefix_iff, hx.suffix_iff, hx'.suffix_iff]

theorem renderParts_writes {doCount avi : Bool} : ∀ {ps : List Part} {out t : List Char} {k k' : Counts},
    renderParts doCount false avi ps out k = .ok (t, k') → ∃ u, t = out ++ u ∧ Writes avi ps u
  | [], out, t, k, k', h => by
    obtain ⟨rfl, -⟩ := Prod.mk.inj (Except.ok.inj h)
    exact ⟨[], (List.append_nil _).symm, .nil⟩
  | p :: ps, out, t, k, k', h => by
    obtain ⟨⟨v, k₁⟩, h1, h2⟩ := bind_eq_ok h
    obtain ⟨u, rfl, hu⟩ := renderParts_writes h2
    refine ⟨v ++ u, List.append_assoc .., ?_⟩
    cases p with
    | text s =>
      obtain ⟨rfl, -⟩ := Prod.mk.inj (Except.ok.inj h1)
      exact .text s hu
    | image =>
      obtain ⟨rfl, -⟩ := Prod.mk.inj (Except.ok.inj h1)
      exact .image _ hu
    | video =>
      obtain ⟨rfl, -⟩ := Prod.mk.inj (Except.ok.inj h1)
      exact .video _ hu
    | other => cases h1

theorem Writes.partsText {avi : Bool} {ps : List Part} {t : List Char} (h : Writes avi ps t) (seen : List Part) :
    Writes avi ps (partsText avi seen ps) := by
  induction h generalizing seen with
  | nil => exact .nil
  | text s _ ih => exact .text s (ih _)
  | image n _ ih => exact .image _ (ih _)
  | video n _ ih => exact .video _ (ih _)

/-- Whatever the numbers, a content wraps a response or not. -/
theorem wraps_contentText {avi : Bool} {c : Content} {t : List Char} {k k' : Counts}
    (h : renderContent false false avi c k = .ok (t, k')) (seen : List Part) :
    wrapsResponse (jinjaTrim (contentText avi seen c)) = wrapsResponse (jinjaTrim t) := by
  cases c with
  | text s =>
    obtain ⟨rfl, -⟩ := Prod.mk.inj (Except.ok.inj h)
    rfl
  | none =>
    obtain ⟨rfl, -⟩ := Prod.mk.inj (Except.ok.inj h)
    rfl
  | unsupported => cases h
  | parts ps =>
    obtain ⟨u, rfl, hu⟩ := renderParts_writes h
    exact ((hu.partsText seen).alike hu).wraps

/-! ### The last query -/

/-- The scan stops at this message. -/
def Stops (avi : Bool) (k : Counts) (m : Message) : Prop :=
  m.role = .user ∧ ∃ c k', renderContent false false avi m.content k = .ok (c, k') ∧ wrapsResponse (jinjaTrim c) = false

/-- The scan goes past this message. -/
def Passes (avi : Bool) (k : Counts) (m : Message) : Prop :=
  m.role = .user → ∃ c k', renderContent false false avi m.content k = .ok (c, k') ∧ wrapsResponse (jinjaTrim c) = true

theorem lastQuery_eq_some {avi : Bool} {k : Counts} {q : ℕ} : ∀ {ms : List Message},
    lastQuery avi k ms = .ok (some q) → ∃ a m b, ms = a ++ m :: b ∧ q = b.length ∧ Stops avi k m ∧
      ∀ x ∈ a, Passes avi k x
  | [], h => by cases h
  | m :: ms, h => by
    rw [lastQuery] at h
    by_cases hrole : m.role = .user
    · rw [if_pos hrole] at h
      obtain ⟨⟨c, k'⟩, hc, h⟩ := bind_eq_ok h
      cases hw : wrapsResponse (jinjaTrim c) with
      | false =>
        dsimp only at h
        rw [hw, if_neg Bool.false_ne_true] at h
        obtain rfl := Option.some.inj (Except.ok.inj h)
        exact ⟨[], m, ms, rfl, rfl, ⟨hrole, c, k', hc, hw⟩, fun _ hx => absurd hx List.not_mem_nil⟩
      | true =>
        dsimp only at h
        rw [hw, if_pos rfl] at h
        obtain ⟨a, x, b, rfl, hq, hx, ha⟩ := lastQuery_eq_some h
        exact ⟨m :: a, x, b, rfl, hq, hx, List.forall_mem_cons.mpr ⟨fun _ => ⟨c, k', hc, hw⟩, ha⟩⟩
    · rw [if_neg hrole] at h
      obtain ⟨a, x, b, rfl, hq, hx, ha⟩ := lastQuery_eq_some h
      exact ⟨m :: a, x, b, rfl, hq, hx, List.forall_mem_cons.mpr ⟨fun hu => absurd hu hrole, ha⟩⟩

theorem any_asks_of_passes {avi : Bool} {k : Counts} : ∀ {ms : List Message} (seen : List Part),
    (∀ m ∈ ms, Passes avi k m) → (turns avi seen ms).any Turn.asks = false
  | [], _, _ => rfl
  | m :: ms, seen, h => by
    have ih := any_asks_of_passes (seen ++ m.content.partList) fun x hx => h x (List.mem_cons_of_mem _ hx)
    rw [turns, List.any_cons, ih, Bool.or_false]
    unfold Turn.asks
    rw [decide_eq_false_iff_not]
    rintro ⟨hrole, hnot⟩
    obtain ⟨c, k', hc, hw⟩ := h m (List.mem_cons_self ..) hrole
    exact hnot ((wraps_contentText hc seen).trans hw)

theorem any_asks_of_stops {avi : Bool} {k : Counts} {m : Message} (hm : Stops avi k m) (b : List Message) :
    ∀ (a : List Message) (seen : List Part), (turns avi seen (a ++ m :: b)).any Turn.asks = true
  | [], seen => by
    obtain ⟨hrole, c, k', hc, hw⟩ := hm
    rw [List.nil_append, turns, List.any_cons]
    unfold Turn.asks
    have hnot : ¬wrapsResponse (jinjaTrim (contentText avi seen m.content)) = true := by
      rw [(wraps_contentText hc seen).trans hw]
      exact Bool.false_ne_true
    rw [decide_eq_true ⟨hrole, hnot⟩, Bool.true_or]
  | x :: a, seen => by
    rw [List.cons_append, turns, List.any_cons, any_asks_of_stops hm b a, Bool.or_true]

/-- A message that is not of the user stands behind the last query exactly if
no later message asks something. -/
theorem queryIndex_fresh {req : Request} {k : Counts} {q : ℕ} (h : queryIndex req k = .ok q) {pre post : List Message}
    {m : Message} (hreq : req.messages = pre ++ m :: post) (hm : m.role ≠ .user) (seen : List Part) :
    decide (q < pre.length) = !(turns req.opts.addVisionId seen post).any Turn.asks := by
  obtain ⟨query, hquery, hq⟩ := bind_eq_ok h
  obtain rfl := orElse_eq_ok hq
  obtain ⟨a, x, b, hrev, rfl, hx, ha⟩ := lastQuery_eq_some hquery
  have hwhole : b.reverse ++ x :: a.reverse = pre ++ m :: post := by
    rw [← hreq, ← List.reverse_reverse req.messages, hrev]
    simp only [List.reverse_append, List.reverse_cons, List.append_assoc, List.singleton_append]
  have hne : x ≠ m := fun he => hm (he ▸ hx.1)
  obtain ⟨c, hpre, hc⟩ | ⟨c, hpre, hc⟩ := List.append_eq_append_iff.mp hwhole
  · obtain _ | ⟨y, c⟩ := c
    · exact absurd (List.cons.inj hc).1 hne
    · have hlen := congrArg List.length hpre
      rw [List.length_append, List.length_cons, List.length_reverse] at hlen
      have hpost := (List.cons.inj hc).2
      have hpass : ∀ z ∈ post, Passes req.opts.addVisionId k z := by
        intro z hz
        apply ha z
        rw [← List.mem_reverse, hpost]
        exact List.mem_append_right _ (List.mem_cons_of_mem _ hz)
      rw [any_asks_of_passes seen hpass, decide_eq_true (by omega)]
      rfl
  · obtain _ | ⟨y, c⟩ := c
    · exact absurd (List.cons.inj hc).1.symm hne
    · have hlen := congrArg List.length hpre
      rw [List.length_append, List.length_cons, List.length_reverse] at hlen
      have hpost : post = c ++ x :: a.reverse := (List.cons.inj hc).2
      rw [hpost, any_asks_of_stops hx, decide_eq_false (by omega)]
      rfl

end Chat
end Siphon
