/-
# The RWKV trie tokenizer

`RWKVTrieTokenizer` reads a vocabulary file line by line into a trie and a
table of tokens. `encode` walks the trie from each position as far as it goes,
emits the last id passed and goes on from where the walk stopped; `decode`
concatenates the tokens of the ids.

The walk may stop beyond the last token it passed, inside a path that only a
longer token would have finished. The letters between are then in no token:
`encode` is the greedy longest-match segmentation exactly on the texts where
this does not happen, provided that the ids name the tokens: the table keeps
the last line of an id, while the trie keeps the tokens of all lines
(`greedyEncoding_iff_tight`).

Key definitions: `parseLine`, `init`, `encode`, `decode`, `KeepsId`.
Key theorem: `greedyEncoding_iff_tight`.
-/
import Mathlib.Algebra.Ring.Nat
import Siphon.Lib.Search
import Siphon.Lib.Trie
import Siphon.Lib.Utf8

namespace Siphon
namespace Rwkv

open Segment

/-! ### Python's reading of a line -/

/-- What the text functions ask Python: whether a character is a space
(`str.isspace`, also `\s`), its value as a decimal digit (also `\d`), and
`sys.get_int_max_str_digits()`, where 0 is no limit. -/
structure Python where
  isspace : Char → Bool
  decimal : Char → Option ℕ
  maxStrDigits : ℕ

/-- `int` refused the text. -/
structure ValueError where
  base : ℕ
  literal : List Char

section Parse

variable (u : Python)

/-- `str.strip()`. -/
def strip (s : List Char) : List Char := Search.strip u.isspace s

/-- The spaces that `int` passes over: in ASCII not U+001C to U+001F, which
`str.isspace` counts. -/
def intSpace (c : Char) : Bool :=
  if c.toNat < 127 then c = ' ' ∨ ('\t' ≤ c ∧ c ≤ '\r') else u.isspace c

/-- The value of a digit in a base: a decimal digit or a Latin letter. -/
def digit (base : ℕ) (c : Char) : Option ℕ :=
  ((u.decimal c).or
    (if 'a' ≤ c ∧ c ≤ 'z' then some (c.toNat - 'a'.toNat + 10)
      else if 'A' ≤ c ∧ c ≤ 'Z' then some (c.toNat - 'A'.toNat + 10)
      else none)).filter (· < base)

/-- The digits after the first one, with single underscores between. -/
def moreDigits (base acc : ℕ) : List Char → Option ℕ
  | [] => some acc
  | '_' :: c :: cs => (digit u base c).bind fun d => moreDigits base (acc * base + d) cs
  | c :: cs => (digit u base c).bind fun d => moreDigits base (acc * base + d) cs

def digits (base : ℕ) : List Char → Option ℕ
  | [] => none
  | c :: cs => (digit u base c).bind fun d => moreDigits u base d cs

/-- Whether there are more digits than `int` converts. The conversion from a base
that is a power of two has no limit. -/
def tooManyDigits (base : ℕ) (cs : List Char) : Bool :=
  base ∉ [2, 4, 8, 16, 32] ∧ 0 < u.maxStrDigits ∧ u.maxStrDigits < cs.countP (· ≠ '_')

/-- A number without its sign. -/
def magnitude (base : ℕ) (cs : List Char) : Option ℕ := if tooManyDigits u base cs then none else digits u base cs

/-- `int(s, base)`. -/
def pyInt (base : ℕ) (s : List Char) : Except ValueError ℤ :=
  let value : Option ℤ :=
    match Search.strip (intSpace u) s with
    | '-' :: cs => (magnitude u base cs).map fun n => -(n : ℤ)
    | '+' :: cs => (magnitude u base cs).map fun n => (n : ℤ)
    | cs => (magnitude u base cs).map fun n => (n : ℤ)
  match value with
  | some v => .ok v
  | none => .error ⟨base, s⟩

/-- The escapes of one letter. -/
def mapping : Char → Option UInt8
  | 'n' => some 0x0A
  | 't' => some 0x09
  | 'r' => some 0x0D
  | '\\' => some 0x5C
  | '\'' => some 0x27
  | '"' => some 0x22
  | _ => none

/-- The loop of `_decode_repr` over what stands between the quotes. -/
def unescape : List Char → Option (List UInt8)
  | [] => some []
  | '\\' :: 'x' :: c :: d :: s =>
    match pyInt u 16 [c, d] with
    -- `bytearray.append` refuses a negative value, and the refusal is caught
    | .ok v => if 0 ≤ v then (unescape s).map (UInt8.ofNat v.toNat :: ·) else none
    | .error _ => none
  | '\\' :: n :: s => (mapping n).bind fun b => (unescape s).map (b :: ·)
  | ['\\'] => none
  | c :: s => (unescape s).map (String.utf8EncodeChar c ++ ·)

/-- `_decode_repr`: the bytes a quoted text stands for. -/
def decodeRepr : List Char → Option (List UInt8)
  | 'b' :: '\'' :: s => unescape u s.dropLast
  | 'b' :: '"' :: s => unescape u s.dropLast
  | '\'' :: s => unescape u s.dropLast
  | '"' :: s => unescape u s.dropLast
  | _ => none

/-- The groups of `^(\d+)\s+(.*)$` on a stripped line. -/
def matchLine (line : List Char) : Option (List Char × List Char) :=
  let isDigit : Char → Bool := fun c => (u.decimal c).isSome
  let spaced := line.dropWhile isDigit
  let rest := spaced.dropWhile u.isspace
  if line.takeWhile isDigit = [] ∨ spaced.takeWhile u.isspace = [] ∨ '\n' ∈ rest then none
  else some (line.takeWhile isDigit, rest)

/-- `rest.rsplit(" ", 1)` where it has two parts. -/
def rsplit (rest : List Char) : Option (List Char × List Char) :=
  if ' ' ∈ rest then
    some ((rest.rdropWhile (· ≠ ' ')).dropLast, rest.rtakeWhile (· ≠ ' '))
  else none

/-- `_parse_line`: a token and its id, or nothing for a line that is passed
over. -/
def parseLine (line : List Char) : Except ValueError (Option (ℕ × List UInt8)) :=
  let line := strip u line
  if line = [] then .ok none
  else
    match matchLine u line with
    | none => .ok none
    | some (number, rest) => do
      let tid ← pyInt u 10 number
      match rsplit rest with
      | none => .ok none
      | some (tokRepr, size) => do
        let byteLen ← pyInt u 10 size
        match decodeRepr u tokRepr with
        | none => .ok none
        | some tok => if (tok.length : ℤ) ≠ byteLen then .ok none else .ok (some (tid.toNat, tok))

end Parse

/-! ### The tokenizer -/

/-- A loaded tokenizer: the trie and `tokens`, the table of the ids. -/
structure Tokenizer where
  root : Trie UInt8 ℕ
  tokens : ℕ → Option (List UInt8)

/-- Before the first line: id 0 is the end of the text, with no bytes. -/
def Tokenizer.empty : Tokenizer where
  root := Trie.empty
  tokens tid := if tid = 0 then some [] else none

/-- Enters a token in the table and in the trie. -/
def Tokenizer.add (tk : Tokenizer) (tid : ℕ) (tok : List UInt8) : Tokenizer where
  root := tk.root.insert tok tid
  tokens i := if i = tid then some tok else tk.tokens i

/-- `__init__` over the lines of the file. -/
def init (u : Python) (lines : List (List Char)) : Except ValueError Tokenizer :=
  lines.foldlM (fun tk line => do
    match ← parseLine u line with
    | none => pure tk
    | some (tid, tok) => pure (tk.add tid tok)) Tokenizer.empty

/-- The ids and tokens of the lines `__init__` does not pass over. -/
def vocabulary (u : Python) (lines : List (List Char)) : List (ℕ × List UInt8) :=
  lines.filterMap fun line =>
    match parseLine u line with
    | .ok e => e
    | .error _ => none

namespace Tokenizer

variable (tk : Tokenizer)

/-- The loop of `encode` on what is left of the data. The walk's `none` is
the `-1` of the source: no id is negative. Every pass goes on by at least one
byte, so as many passes as there are bytes are enough. -/
def encodeFrom : ℕ → List UInt8 → List ℕ
  | 0, _ => []
  | _ + 1, [] => []
  | fuel + 1, b :: rest =>
    let best := (tk.root.walk none (b :: rest)).1
    let j := (tk.root.walk none (b :: rest)).2
    best.getD (1 + b.toNat) :: encodeFrom fuel ((b :: rest).drop (if 0 < j then j else 1))

/-- `encode`. -/
def encode (text : List Char) : List ℕ :=
  tk.encodeFrom (Utf8.encode text).length (Utf8.encode text)

/-- The literal `b"\ufffd"` of the source, which in bytes is no escape. -/
def unknown : List UInt8 := [0x5C, 0x75, 0x66, 0x66, 0x66, 0x64]

/-- `decode`. -/
def decode (ids : List ℕ) : List Char :=
  Utf8.decodeLossy (ids.flatMap fun tid => (tk.tokens tid).getD unknown)

end Tokenizer

/-! ### What a file loads -/

/-- The tokenizer of a list of ids and tokens. -/
def Tokenizer.ofEntries (es : List (ℕ × List UInt8)) : Tokenizer :=
  es.foldl (fun tk e => tk.add e.1 e.2) Tokenizer.empty

theorem init_foldlM (u : Python) : ∀ (lines : List (List Char)) (tk₀ tk : Tokenizer),
    lines.foldlM (fun tk line => do
      match ← parseLine u line with
      | none => pure tk
      | some (tid, tok) => pure (tk.add tid tok)) tk₀ = Except.ok tk →
    tk = (vocabulary u lines).foldl (fun tk e => tk.add e.1 e.2) tk₀
  | [], tk₀, tk, h => by
    cases h
    rfl
  | line :: lines, tk₀, tk, h => by
    rw [List.foldlM_cons] at h
    unfold vocabulary
    cases hp : parseLine u line with
    | error e =>
      rw [hp] at h
      cases h
    | ok o =>
      rw [hp] at h
      cases o with
      | none =>
        rw [List.filterMap_cons_none (by rw [hp])]
        exact init_foldlM u lines tk₀ tk h
      | some e =>
        rw [List.filterMap_cons_some (by rw [hp]), List.foldl_cons]
        exact init_foldlM u lines (tk₀.add e.1 e.2) tk h

/-- A file that is read without an error loads its vocabulary. -/
theorem eq_ofEntries_of_init {u : Python} {lines : List (List Char)} {tk : Tokenizer}
    (h : init u lines = .ok tk) : tk = Tokenizer.ofEntries (vocabulary u lines) :=
  init_foldlM u lines _ tk h

/-- A file in which `int` finds a number wherever it is asked to is read
without an error. -/
theorem init_eq_ok {u : Python} {lines : List (List Char)}
    (h : ∀ line ∈ lines, ∃ o, parseLine u line = .ok o) :
    init u lines = .ok (Tokenizer.ofEntries (vocabulary u lines)) := by
  unfold init Tokenizer.ofEntries
  generalize Tokenizer.empty = tk
  induction lines generalizing tk with
  | nil => rfl
  | cons line lines ih =>
    obtain ⟨o, ho⟩ := h line (by simp)
    unfold vocabulary
    rw [List.foldlM_cons, ho]
    cases o with
    | none =>
      rw [List.filterMap_cons_none (by rw [ho])]
      exact ih (fun l hl => h l (by simp [hl])) tk
    | some e =>
      rw [List.filterMap_cons_some (by rw [ho]), List.foldl_cons]
      exact ih (fun l hl => h l (by simp [hl])) (tk.add e.1 e.2)

theorem root_foldl : ∀ (es : List (ℕ × List UInt8)) (tk : Tokenizer),
    (es.foldl (fun tk e => tk.add e.1 e.2) tk).root = es.foldl (fun t e => t.insert e.2 e.1) tk.root
  | [], _ => rfl
  | e :: es, tk => root_foldl es (tk.add e.1 e.2)

theorem root_ofEntries (es : List (ℕ × List UInt8)) :
    (Tokenizer.ofEntries es).root = Trie.ofEntries es := root_foldl es _

/-- A vocabulary: no token comes twice, none is empty, and every byte is a
token. -/
structure WellFormed (es : List (ℕ × List UInt8)) : Prop where
  distinct : (es.map Prod.snd).Nodup
  nonempty : ∀ e ∈ es, e.2 ≠ []
  bytes : ∀ b : UInt8, [b] ∈ es.map Prod.snd

/-- No later line gives the id of a token to another one. -/
def KeepsId (es : List (ℕ × List UInt8)) (w : List UInt8) : Prop :=
  ∀ pre i post, es = pre ++ (i, w) :: post → i ∉ post.map Prod.fst

/-- Where no id comes twice, every token keeps its own. -/
theorem keepsId_of_nodup {es : List (ℕ × List UInt8)} (h : (es.map Prod.fst).Nodup) (w : List UInt8) :
    KeepsId es w := by
  rintro pre i post rfl
  rw [List.map_append, List.map_cons] at h
  exact (List.nodup_cons.mp h.of_append_right).1

theorem tokens_foldl_of_notMem {i : ℕ} : ∀ (es : List (ℕ × List UInt8)) (tk : Tokenizer),
    i ∉ es.map Prod.fst → (es.foldl (fun tk e => tk.add e.1 e.2) tk).tokens i = tk.tokens i
  | [], _, _ => rfl
  | e :: es, tk, h => by
    rw [List.map_cons, List.mem_cons, not_or] at h
    rw [List.foldl_cons, tokens_foldl_of_notMem es _ h.2]
    exact if_neg h.1

/-- The table has the token of some line with the id. -/
theorem tokens_foldl_of_mem {i : ℕ} : ∀ (es : List (ℕ × List UInt8)) (tk : Tokenizer), i ∈ es.map Prod.fst →
    ∃ w, (i, w) ∈ es ∧ (es.foldl (fun tk e => tk.add e.1 e.2) tk).tokens i = some w
  | e :: es, tk, h => by
    rw [List.foldl_cons]
    by_cases hmem : i ∈ es.map Prod.fst
    · obtain ⟨w, hw, he⟩ := tokens_foldl_of_mem es (tk.add e.1 e.2) hmem
      exact ⟨w, List.mem_cons_of_mem _ hw, he⟩
    · obtain rfl : i = e.1 := (List.mem_cons.mp h).resolve_right hmem
      refine ⟨e.2, List.mem_cons_self, ?_⟩
      rw [tokens_foldl_of_notMem es _ hmem]
      exact if_pos rfl

section Loaded

variable {es : List (ℕ × List UInt8)}

/-- The table of a vocabulary gives an id its token just if the token keeps
its id. -/
theorem tokens_ofEntries_iff (h : WellFormed es) {i : ℕ} {w : List UInt8} (hm : (i, w) ∈ es) :
    (Tokenizer.ofEntries es).tokens i = some w ↔ KeepsId es w := by
  constructor
  · rintro htok pre j post rfl hj
    have hnodup := h.distinct
    rw [List.map_append, List.map_cons] at hnodup
    have hpost := (List.nodup_cons.mp hnodup.of_append_right).1
    -- the line of the token is the only one
    obtain rfl : i = j := by
      have hinj := List.inj_on_of_nodup_map h.distinct hm (List.mem_append_right pre List.mem_cons_self) rfl
      exact congrArg Prod.fst hinj
    obtain ⟨v, hv, hval⟩ := tokens_foldl_of_mem post ((Tokenizer.ofEntries pre).add i w) hj
    have hfold : (Tokenizer.ofEntries (pre ++ (i, w) :: post)).tokens i = some v := by
      rw [Tokenizer.ofEntries, List.foldl_append, List.foldl_cons]
      exact hval
    obtain rfl : v = w := Option.some.inj (hfold.symm.trans htok)
    exact hpost (List.mem_map.mpr ⟨(i, v), hv, rfl⟩)
  · intro hk
    obtain ⟨pre, post, rfl⟩ := List.append_of_mem hm
    rw [Tokenizer.ofEntries, List.foldl_append, List.foldl_cons,
      tokens_foldl_of_notMem post _ (hk pre i post rfl)]
    exact if_pos rfl

theorem mem_of_valueAt {w : List UInt8} {i : ℕ} (h : (Trie.ofEntries es).valueAt w = some i) :
    (i, w) ∈ es := by
  rw [Trie.valueAt_ofEntries, Option.map_eq_some_iff] at h
  obtain ⟨e, he, rfl⟩ := h
  have hw : e.2 = w := by simpa using List.find?_some he
  rw [← hw]
  exact List.mem_reverse.mp (List.mem_of_find?_eq_some he)

theorem isSome_valueAt_iff {w : List UInt8} :
    ((Trie.ofEntries es).valueAt w).isSome ↔ w ∈ es.map Prod.snd := by
  rw [Trie.valueAt_ofEntries, Option.isSome_map, List.find?_isSome]
  simp only [List.mem_reverse, decide_eq_true_eq, List.mem_map]

/-- The walk on a non-empty text: it remembers the id of the longest token
the text begins with, and stops at the end of the longest start of a token. -/
theorem walk_spec (h : WellFormed es) {text : List UInt8} (ht : text ≠ []) :
    ∃ i w, (i, w) ∈ es ∧ IsLongest (es.map Prod.snd) w text ∧
      ((Trie.ofEntries es).walk none text).1 = some i ∧
      w.length ≤ ((Trie.ofEntries es).walk none text).2 ∧
      ((Trie.ofEntries es).walk none text).2 ≤ text.length ∧
      (((Trie.ofEntries es).walk none text).2 ≤ w.length ↔
        ∀ u ∈ es.map Prod.snd, ∀ p, p <+: u → p <+: text → p.length ≤ w.length) := by
  obtain ⟨hle, hpath, hmax⟩ := Trie.walk_length text (Trie.ofEntries es) none
  have hpaths : ∀ u ∈ es.map Prod.snd, ∀ p, p <+: u → ((Trie.ofEntries es).at? p).isSome := by
    intro u hu p hp
    obtain ⟨e, he, rfl⟩ := List.mem_map.mp hu
    exact (Trie.isPath_ofEntries es p).mpr (.inr ⟨e, he, hp⟩)
  rcases Trie.walk_best text (Trie.ofEntries es) none with ⟨w, i, hw, hp, hi, hb, hlong⟩ | ⟨_, hnone⟩
  · have hm := mem_of_valueAt hi
    have hV : w ∈ es.map Prod.snd := List.mem_map.mpr ⟨_, hm, rfl⟩
    refine ⟨i, w, hm, ⟨hV, hp, fun u hu hp' => hlong u hp' (isSome_valueAt_iff.mpr hu)⟩, hb,
      hmax w hp (hpaths w hV w (List.prefix_refl w)), hle, ?_, ?_⟩
    · intro hk u hu p hpu hpt
      exact le_trans (hmax p hpt (hpaths u hu p hpu)) hk
    · intro hall
      rcases (Trie.isPath_ofEntries es _).mp hpath with hnil | ⟨e, he, hpe⟩
      · rw [List.take_eq_nil_iff] at hnil
        rcases hnil with h0 | h0
        · omega
        · exact absurd h0 ht
      · have := hall e.2 (List.mem_map.mpr ⟨e, he, rfl⟩) _ hpe (List.take_prefix _ _)
        rwa [List.length_take, Nat.min_eq_left hle] at this
  · obtain ⟨b, rest, rfl⟩ := List.exists_cons_of_ne_nil ht
    have hb := isSome_valueAt_iff.mpr (h.bytes b)
    rw [hnone [b] (by simp) (by simp)] at hb
    cases hb

/-! ### The encoding -/

/-- One pass of the loop on a non-empty text. -/
theorem encodeFrom_succ (h : WellFormed es) (fuel : ℕ) {text : List UInt8} (ht : text ≠ []) :
    ∃ i w k, (i, w) ∈ es ∧ IsLongest (es.map Prod.snd) w text ∧
      (Tokenizer.ofEntries es).encodeFrom (fuel + 1) text =
        i :: (Tokenizer.ofEntries es).encodeFrom fuel (text.drop k) ∧
      0 < k ∧ w.length ≤ k ∧ k ≤ text.length ∧
      (k ≤ w.length ↔ ∀ u ∈ es.map Prod.snd, ∀ p, p <+: u → p <+: text → p.length ≤ w.length) := by
  obtain ⟨i, w, hm, hl, hb, hwk, hkt, hiff⟩ := walk_spec h ht
  have hw : 0 < w.length := List.length_pos_iff.mpr (h.nonempty _ hm)
  have hk := lt_of_lt_of_le hw hwk
  refine ⟨i, w, _, hm, hl, ?_, hk, hwk, hkt, hiff⟩
  obtain ⟨b, rest, rfl⟩ := List.exists_cons_of_ne_nil ht
  rw [Tokenizer.encodeFrom, root_ofEntries, hb, if_pos hk, Option.getD_some]

/-- Every token that occurs in the text keeps its id. -/
def Kept (es : List (ℕ × List UInt8)) (text : List UInt8) : Prop :=
  ∀ w ∈ es.map Prod.snd, w <:+: text → KeepsId es w

theorem Kept.of_infix {text text' : List UInt8} (h : Kept es text) (hi : text' <:+: text) : Kept es text' :=
  fun w hw ho => h w hw (ho.trans hi)

/-- The table has the token of an id that is emitted. -/
theorem Kept.tokens (h : WellFormed es) {text : List UInt8} (hk : Kept es text) {i : ℕ} {w : List UInt8}
    (hm : (i, w) ∈ es) (hp : w <+: text) : (Tokenizer.ofEntries es).tokens i = some w :=
  (tokens_ofEntries_iff h hm).mpr (hk w (List.mem_map.mpr ⟨_, hm, rfl⟩) hp.isInfix)

/-- The tokens of the ids are together no longer than the text. -/
theorem length_tokens_le (h : WellFormed es) (fuel : ℕ) : ∀ text : List UInt8, Kept es text →
    (((Tokenizer.ofEntries es).encodeFrom fuel text).map
      fun i => (((Tokenizer.ofEntries es).tokens i).getD []).length).sum ≤ text.length := by
  induction fuel with
  | zero => intro text _; exact Nat.zero_le _
  | succ fuel ih =>
    intro text hkept
    by_cases ht : text = []
    · rw [ht]
      exact Nat.zero_le _
    · obtain ⟨i, w, k, hm, hl, he, _, hwk, hkt, _⟩ := encodeFrom_succ h fuel ht
      have := ih (text.drop k) (hkept.of_infix (List.drop_suffix k text).isInfix)
      rw [List.length_drop] at this
      rw [he, List.map_cons, List.sum_cons, hkept.tokens h hm hl.isPrefix, Option.getD_some]
      omega

/-- Every text has a longest-match segmentation. -/
theorem exists_segmentation (h : WellFormed es) : ∀ (n : ℕ) (text : List UInt8), text.length ≤ n →
    ∃ ws, Segmentation (es.map Prod.snd) ws text := by
  intro n
  induction n with
  | zero =>
    intro text ht
    rw [List.eq_nil_of_length_eq_zero (Nat.le_zero.mp ht)]
    exact ⟨[], .nil⟩
  | succ n ih =>
    intro text hn
    by_cases ht : text = []
    · exact ⟨[], ht ▸ .nil⟩
    · obtain ⟨i, w, hm, hl, _⟩ := walk_spec h ht
      obtain ⟨rest, rfl⟩ := hl.isPrefix
      have hw : 0 < w.length := List.length_pos_iff.mpr (h.nonempty _ hm)
      rw [List.length_append] at hn
      obtain ⟨ws, hws⟩ := ih rest (by omega)
      exact ⟨w :: ws, .cons hl hws⟩

theorem words_ne_nil (h : WellFormed es) : ∀ w ∈ es.map Prod.snd, w ≠ [] := by
  intro w hw
  obtain ⟨e, he, rfl⟩ := List.mem_map.mp hw
  exact h.nonempty e he

theorem sum_length_of_map_eq (tokens : ℕ → Option (List UInt8)) {ids : List ℕ} {ws : List (List UInt8)}
    (he : ids.map tokens = ws.map some) :
    (ids.map fun i => ((tokens i).getD []).length).sum = ws.flatten.length := by
  have : ids.map (fun i => ((tokens i).getD []).length) =
      (ids.map tokens).map fun o => (o.getD []).length := by
    rw [List.map_map]
    rfl
  rw [this, he, List.map_map, List.length_flatten]
  rfl

/-- Where the tokens keep their ids, the ids are those of the segmentation
exactly when it is tight. -/
theorem tokens_encodeFrom_iff (h : WellFormed es) {ws : List (List UInt8)} {text : List UInt8}
    (hs : Segmentation (es.map Prod.snd) ws text) : ∀ fuel, text.length ≤ fuel → Kept es text →
    (((Tokenizer.ofEntries es).encodeFrom fuel text).map (Tokenizer.ofEntries es).tokens = ws.map some ↔
      Tight (es.map Prod.snd) text) := by
  have hV := words_ne_nil h
  induction hs with
  | nil =>
    intro fuel _ _
    have : (Tokenizer.ofEntries es).encodeFrom fuel [] = [] := by cases fuel <;> rfl
    simp only [this, List.map_nil, true_iff]
    exact tight_nil hV
  | @cons w rest ws hl hs ih =>
    intro fuel hfuel hkept
    have hw : 0 < w.length := List.length_pos_iff.mpr (hV w hl.mem)
    rw [List.length_append] at hfuel
    obtain ⟨fuel, rfl⟩ : ∃ f, fuel = f + 1 := ⟨fuel - 1, by omega⟩
    have hne : w ++ rest ≠ [] := List.append_ne_nil_of_left_ne_nil (hV w hl.mem) _
    obtain ⟨i, w', k, hm, hl', he, hk, hwk, hkt, hiff⟩ := encodeFrom_succ h fuel hne
    obtain rfl := hl.unique hl'
    rw [he, List.map_cons, List.map_cons, hkept.tokens h hm hl.isPrefix, List.cons.injEq, tight_cons hV hl hs,
      ← hiff]
    simp only [true_and]
    by_cases hkw : k = w.length
    · subst hkw
      rw [List.drop_left, ih fuel (by omega) (hkept.of_infix (List.suffix_append w rest).isInfix)]
      simp
    · -- the walk went beyond the token: what is left is too short for the other parts
      have hlen := length_tokens_le h fuel ((w ++ rest).drop k)
        (hkept.of_infix (List.drop_suffix k (w ++ rest)).isInfix)
      rw [List.length_drop, List.length_append] at hlen
      rw [List.length_append] at hkt
      constructor
      · intro heq
        rw [sum_length_of_map_eq _ heq, hs.flatten_eq] at hlen
        omega
      · rintro ⟨hle, _⟩
        omega

/-- Where the segmentation is tight, the ids are those of the lines of its
parts. -/
theorem encodeFrom_of_tight (h : WellFormed es) {ws : List (List UInt8)} {text : List UInt8}
    (hs : Segmentation (es.map Prod.snd) ws text) : ∀ fuel, text.length ≤ fuel → Tight (es.map Prod.snd) text →
    List.Forall₂ (fun i w => (i, w) ∈ es) ((Tokenizer.ofEntries es).encodeFrom fuel text) ws := by
  have hV := words_ne_nil h
  induction hs with
  | nil =>
    intro fuel _ _
    have : (Tokenizer.ofEntries es).encodeFrom fuel [] = [] := by cases fuel <;> rfl
    rw [this]
    exact .nil
  | @cons w rest ws hl hs ih =>
    intro fuel hfuel ht
    have hw : 0 < w.length := List.length_pos_iff.mpr (hV w hl.mem)
    rw [List.length_append] at hfuel
    obtain ⟨fuel, rfl⟩ : ∃ f, fuel = f + 1 := ⟨fuel - 1, by omega⟩
    have hne : w ++ rest ≠ [] := List.append_ne_nil_of_left_ne_nil (hV w hl.mem) _
    obtain ⟨i, w', k, hm, hl', he, hk, hwk, -, hiff⟩ := encodeFrom_succ h fuel hne
    obtain rfl := hl.unique hl'
    obtain ⟨hthis, hrest⟩ := (tight_cons hV hl hs).mp ht
    obtain rfl : k = w.length := Nat.le_antisymm (hiff.mpr hthis) hwk
    rw [he, List.drop_left]
    exact .cons hm (ih fuel (by omega) hrest)

/-- The table has the parts exactly where they keep their ids. -/
theorem map_tokens_eq_iff (h : WellFormed es) {ids : List ℕ} {ws : List (List UInt8)}
    (hf : List.Forall₂ (fun i w => (i, w) ∈ es) ids ws) :
    ids.map (Tokenizer.ofEntries es).tokens = ws.map some ↔ ∀ w ∈ ws, KeepsId es w := by
  induction hf with
  | nil => simp
  | cons hm _ ih => simp [ih, tokens_ofEntries_iff h hm]

/-- The ids the tokenizer gives a text are those of the longest-match
segmentation of its bytes: the tokens are the parts, their bytes are the
text's, and decoding gives the text. -/
structure GreedyEncoding (tk : Tokenizer) (V : List (List UInt8)) (text : List Char) : Prop where
  segmentation : ∃ ws, Segmentation V ws (Utf8.encode text) ∧ (tk.encode text).map tk.tokens = ws.map some
  concat : ((tk.encode text).flatMap fun i => (tk.tokens i).getD []) = Utf8.encode text
  roundTrip : tk.decode (tk.encode text) = text

theorem flatMap_getD_of_map_eq {tokens : ℕ → Option (List UInt8)} {ids : List ℕ} {ws : List (List UInt8)}
    (d : List UInt8) (he : ids.map tokens = ws.map some) :
    (ids.flatMap fun i => (tokens i).getD d) = ws.flatten := by
  have : ids.map (fun i => (tokens i).getD d) = (ids.map tokens).map fun o => o.getD d := by
    rw [List.map_map]
    rfl
  rw [List.flatMap_def, this, he, List.map_map]
  congr 1
  exact List.map_id ws

end Loaded

/-- The encoding is greedy exactly where the table has the parts of the
segmentation. -/
theorem greedyEncoding_iff {es : List (ℕ × List UInt8)} (h : WellFormed es) {text : List Char}
    {ws : List (List UInt8)} (hws : Segmentation (es.map Prod.snd) ws (Utf8.encode text)) :
    GreedyEncoding (Tokenizer.ofEntries es) (es.map Prod.snd) text ↔
      ((Tokenizer.ofEntries es).encode text).map (Tokenizer.ofEntries es).tokens = ws.map some := by
  constructor
  · rintro ⟨⟨vs, hvs, heq⟩, _, _⟩
    rwa [hvs.unique (words_ne_nil h) hws] at heq
  · intro heq
    refine ⟨⟨ws, hws, heq⟩, ?_, ?_⟩
    · exact (flatMap_getD_of_map_eq [] heq).trans hws.flatten_eq
    · unfold Tokenizer.decode
      rw [flatMap_getD_of_map_eq Tokenizer.unknown heq, hws.flatten_eq]
      exact Utf8.decodeLossy_encode text

/-- **The encoding is the greedy longest match exactly where no walk passes
the last token and the ids name the tokens.** For a loaded vocabulary, where at
every cut of the longest-match segmentation of a text the longest run of bytes
that begins a token is itself a token, `encode` gives that segmentation if and
only if its parts keep their ids. Where every token in the text keeps its id,
`encode` gives the segmentation if and only if it is tight. -/
theorem greedyEncoding_iff_tight (u : Python) {lines : List (List Char)} {tk : Tokenizer}
    (hinit : init u lines = .ok tk) (h : WellFormed (vocabulary u lines)) (text : List Char) :
    (Tight ((vocabulary u lines).map Prod.snd) (Utf8.encode text) →
      (GreedyEncoding tk ((vocabulary u lines).map Prod.snd) text ↔
        ∀ ws, Segmentation ((vocabulary u lines).map Prod.snd) ws (Utf8.encode text) →
          ∀ w ∈ ws, KeepsId (vocabulary u lines) w)) ∧
    (Kept (vocabulary u lines) (Utf8.encode text) →
      (GreedyEncoding tk ((vocabulary u lines).map Prod.snd) text ↔
        Tight ((vocabulary u lines).map Prod.snd) (Utf8.encode text))) := by
  obtain rfl := eq_ofEntries_of_init hinit
  obtain ⟨ws, hws⟩ := exists_segmentation h _ (Utf8.encode text) le_rfl
  constructor
  · intro ht
    rw [greedyEncoding_iff h hws]
    refine (map_tokens_eq_iff h (encodeFrom_of_tight h hws _ le_rfl ht)).trans ⟨fun hall vs hvs => ?_, fun hall => ?_⟩
    · rwa [hvs.unique (words_ne_nil h) hws]
    · exact hall ws hws
  · intro hkept
    rw [greedyEncoding_iff h hws]
    exact tokens_encodeFrom_iff h hws _ le_rfl hkept

/-! ### A vocabulary with a gap -/

/-- ASCII text, where Python's answers need no Unicode table. -/
def ascii : Python where
  isspace c := c = ' ' ∨ ('\t' ≤ c ∧ c ≤ '\r') ∨ ('\x1c' ≤ c ∧ c ≤ '\x1f')
  decimal c := if '0' ≤ c ∧ c ≤ '9' then some (c.toNat - '0'.toNat) else none
  maxStrDigits := 4300

/-- The line of a byte: its id is one more than its value. -/
def byteLine (b : ℕ) : List Char :=
  Nat.toDigits 10 (b + 1) ++ [' ', 'b', '\'', '\\', 'x', Nat.digitChar (b / 16), Nat.digitChar (b % 16),
    '\'', ' ', '1', '\n']

/-- Every byte and the token `abc`, but no token `ab`. -/
def gapFile : List (List Char) :=
  (List.range 256).map byteLine ++ [['2', '5', '7', ' ', '\'', 'a', 'b', 'c', '\'', ' ', '3', '\n']]

def gapEntries : List (ℕ × List UInt8) :=
  (List.range 256).map (fun b => (b + 1, [UInt8.ofNat b])) ++ [(257, [0x61, 0x62, 0x63])]

theorem parse_byteLine {b : ℕ} (h : b < 256) :
    (parseLine ascii (byteLine b)).toOption = some (some (b + 1, [UInt8.ofNat b])) := by
  -- in quarters, so that each is a small computation
  have h0 : ∀ b < 64, (parseLine ascii (byteLine b)).toOption = some (some (b + 1, [UInt8.ofNat b])) := by
    decide +kernel
  have h1 : ∀ b < 64, (parseLine ascii (byteLine (64 + b))).toOption =
      some (some (64 + b + 1, [UInt8.ofNat (64 + b)])) := by
    decide +kernel
  have h2 : ∀ b < 64, (parseLine ascii (byteLine (128 + b))).toOption =
      some (some (128 + b + 1, [UInt8.ofNat (128 + b)])) := by
    decide +kernel
  have h3 : ∀ b < 64, (parseLine ascii (byteLine (192 + b))).toOption =
      some (some (192 + b + 1, [UInt8.ofNat (192 + b)])) := by
    decide +kernel
  obtain h | ⟨c, hc, rfl⟩ | ⟨c, hc, rfl⟩ | ⟨c, hc, rfl⟩ : b < 64 ∨ (∃ c < 64, b = 64 + c) ∨
      (∃ c < 64, b = 128 + c) ∨ ∃ c < 64, b = 192 + c := by
    by_cases h64 : b < 64
    · exact .inl h64
    by_cases h128 : b < 128
    · exact .inr (.inl ⟨b - 64, by omega, by omega⟩)
    by_cases h192 : b < 192
    · exact .inr (.inr (.inl ⟨b - 128, by omega, by omega⟩))
    · exact .inr (.inr (.inr ⟨b - 192, by omega, by omega⟩))
  · exact h0 b h
  · exact h1 c hc
  · exact h2 c hc
  · exact h3 c hc

theorem parse_gapFile : gapFile.map (fun line => (parseLine ascii line).toOption) =
    gapEntries.map fun e => some (some e) := by
  have hbytes : ((List.range 256).map byteLine).map (fun line => (parseLine ascii line).toOption) =
      ((List.range 256).map fun b => (b + 1, [UInt8.ofNat b])).map fun e => some (some e) := by
    rw [List.map_map, List.map_map]
    exact List.map_congr_left fun b hb => parse_byteLine (List.mem_range.mp hb)
  rw [gapFile, gapEntries, List.map_append, List.map_append, hbytes]
  congr 1

theorem vocabulary_gapFile : vocabulary ascii gapFile = gapEntries := by
  have h : ∀ line, (match parseLine ascii line with | .ok e => e | .error _ => none) =
      (parseLine ascii line).toOption.join := by
    intro line
    cases parseLine ascii line <;> rfl
  unfold vocabulary
  simp only [h]
  calc gapFile.filterMap (fun line => (parseLine ascii line).toOption.join)
      = (gapFile.map fun line => (parseLine ascii line).toOption).filterMap Option.join := by
        rw [List.filterMap_map]
        rfl
    _ = gapEntries := by
        rw [parse_gapFile, List.filterMap_map]
        exact List.filterMap_some

/-- No id comes twice. -/
theorem kept_gapEntries (text : List UInt8) : Kept gapEntries text := by
  refine fun w _ _ => keepsId_of_nodup ?_ w
  rw [gapEntries, List.map_append, List.map_map]
  apply List.nodup_append.mpr
  refine ⟨List.nodup_range.map fun a b => Nat.succ.inj, List.nodup_singleton _, ?_⟩
  rintro i hi j hj rfl
  simp at hi hj
  omega

theorem wellFormed_gapEntries : WellFormed gapEntries where
  distinct := by
    rw [gapEntries, List.map_append, List.map_map]
    apply List.nodup_append.mpr
    refine ⟨List.Nodup.map_on (fun a ha b hb hab => ?_) List.nodup_range, List.nodup_singleton _, ?_⟩
    · have := congrArg UInt8.toNat (List.cons.inj hab).1
      rwa [UInt8.toNat_ofNat_of_lt' (List.mem_range.mp ha),
        UInt8.toNat_ofNat_of_lt' (List.mem_range.mp hb)] at this
    · rintro i hi j hj rfl
      simp at hi hj
      obtain ⟨b, _, hb⟩ := hi
      rw [hj] at hb
      exact absurd (congrArg List.length hb) (by simp)
  nonempty := by decide +kernel
  bytes b := by
    refine List.mem_map.mpr ⟨(b.toNat + 1, [b]), List.mem_append_left _ (List.mem_map.mpr ?_), rfl⟩
    exact ⟨b.toNat, List.mem_range.mpr b.toNat_lt, by simp⟩

theorem init_gapFile : init ascii gapFile = .ok (Tokenizer.ofEntries (vocabulary ascii gapFile)) := by
  apply init_eq_ok
  intro line hline
  have : (parseLine ascii line).toOption ∈ gapEntries.map fun e => some (some e) := by
    rw [← parse_gapFile]
    exact List.mem_map.mpr ⟨line, hline, rfl⟩
  obtain ⟨e, _, he⟩ := List.mem_map.mp this
  cases hp : parseLine ascii line with
  | ok o => exact ⟨o, rfl⟩
  | error x => rw [hp] at he; cases he

theorem greedyEncoding_iff_tight_gapFile : WellFormed (vocabulary ascii gapFile) ∧
    (GreedyEncoding (Tokenizer.ofEntries (vocabulary ascii gapFile))
        ((vocabulary ascii gapFile).map Prod.snd) ['a', 'b', 'c'] ↔
      Tight ((vocabulary ascii gapFile).map Prod.snd) (Utf8.encode ['a', 'b', 'c'])) := by
  have h : WellFormed (vocabulary ascii gapFile) := vocabulary_gapFile ▸ wellFormed_gapEntries
  exact ⟨h, (greedyEncoding_iff_tight ascii init_gapFile h _).2 (vocabulary_gapFile ▸ kept_gapEntries _)⟩

/-- On `abx` the walk goes over `ab` and stops: `a` is emitted and `b` is in
no token, so that decoding gives `ax`. -/
theorem greedy_skips_byte : ∃ tk, init ascii gapFile = .ok tk ∧ WellFormed (vocabulary ascii gapFile) ∧
    tk.encode ['a', 'b', 'x'] = [98, 121] ∧ tk.decode [98, 121] = ['a', 'x'] ∧
    ¬ GreedyEncoding tk ((vocabulary ascii gapFile).map Prod.snd) ['a', 'b', 'x'] := by
  have he : (Tokenizer.ofEntries gapEntries).encode ['a', 'b', 'x'] = [98, 121] := by decide
  have hd : (Tokenizer.ofEntries gapEntries).decode [98, 121] = ['a', 'x'] := by decide
  refine ⟨_, init_gapFile, vocabulary_gapFile ▸ wellFormed_gapEntries, ?_⟩
  rw [vocabulary_gapFile]
  refine ⟨he, hd, fun h => ?_⟩
  have := h.roundTrip
  rw [he, hd] at this
  exact absurd this (by decide)

end Rwkv
end Siphon
