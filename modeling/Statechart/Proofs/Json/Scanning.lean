import Mathlib.Data.List.TakeWhile
import Mathlib.Tactic.IntervalCases
import Statechart.Json.Printer
import Statechart.Proofs.SessionIds

/-!
From printed trees back to tokens. A word is only read when the character after it shows where it
ends, so that what is printed is scanned in front of anything in which no word goes on; whatever
is closed by a mark or a quotation mark is scanned in front of anything at all.
-/

namespace Statechart.Json

namespace Token

/-- The scanner gets `tokens` from `cs`, whatever follows. -/
def Scans (cs : List Char) (tokens : List Token) : Prop :=
  ∀ rest, scanFrom .between (cs ++ rest) = (scanFrom .between rest).map (tokens ++ ·)

/-- The scanner gets `tokens` from `cs`, unless what follows carries on a word. -/
def ScansApart (cs : List Char) (tokens : List Token) : Prop :=
  ∀ rest, (∀ c ∈ rest.head?, isWordEnd c = true) →
    scanFrom .between (cs ++ rest) = (scanFrom .between rest).map (tokens ++ ·)

theorem Scans.apart {cs : List Char} {tokens : List Token} (h : Scans cs tokens) :
    ScansApart cs tokens :=
  fun rest _ => h rest

theorem scans_nil : Scans [] [] := by
  intro rest
  simp

theorem Scans.append {cs cs' : List Char} {tokens tokens' : List Token} (h : Scans cs tokens)
    (h' : Scans cs' tokens') : Scans (cs ++ cs') (tokens ++ tokens') := by
  intro rest
  rw [List.append_assoc, h, h', Option.map_map]
  congr 1
  funext others
  simp

/-- What ends with a word is closed by what begins with the end of a word. -/
theorem ScansApart.append {cs cs' : List Char} {c : Char} {tokens tokens' : List Token}
    (h : ScansApart cs tokens) (hend : isWordEnd c = true) (h' : Scans (c :: cs') tokens') :
    Scans (cs ++ c :: cs') (tokens ++ tokens') := by
  intro rest
  have hhead : ∀ d ∈ (c :: cs' ++ rest).head?, isWordEnd d = true := by
    intro d hd
    obtain rfl : c = d := by simpa using hd
    exact hend
  rw [List.append_assoc, h _ hhead, h', Option.map_map]
  congr 1
  funext others
  simp

theorem scanFrom_cons (mode : Mode) (c : Char) (rest : List Char) :
    scanFrom mode (c :: rest) =
      (step? mode c).bind fun read => (scanFrom read.2 rest).map (read.1 ++ ·) := by
  cases mode <;>
    simp only [scanFrom, Option.bind_eq_bind, Option.map_eq_bind, Function.comp_def]

/-- Where a character completes no token the scanner only goes on. -/
theorem scanFrom_quiet {mode : Mode} (next : Mode) {c : Char}
    (h : step? mode c = some ([], next)) (rest : List Char) :
    scanFrom mode (c :: rest) = scanFrom next rest := by
  rw [scanFrom_cons, h, Option.bind_some]
  exact Option.map_id'

theorem scans_mark {c : Char} {token : Token} (h : ofMark? c = some token)
    (hspace : isSpace c = false) (hquote : c ≠ '"') : Scans [c] [token] := by
  intro rest
  rw [List.singleton_append, scanFrom_cons, step?, start?, if_neg (by simp [hspace]),
    if_neg hquote, h]
  rfl

theorem scans_space {c : Char} (h : isSpace c = true) : Scans [c] [] := by
  intro rest
  rw [List.singleton_append, scanFrom_cons, step?, start?, if_pos h]
  simp

theorem scans_spaces {cs : List Char} (h : ∀ c ∈ cs, isSpace c = true) : Scans cs [] := by
  induction cs with
  | nil => exact scans_nil
  | cons c cs ih =>
    exact (scans_space (h c (by simp))).append (ih (fun d hd => h d (List.mem_cons_of_mem c hd)))

theorem scanFrom_word {letters word : List Char} (hword : ∀ c ∈ word, isWordEnd c = false)
    (rest : List Char) :
    scanFrom (.word letters) (word ++ rest) = scanFrom (.word (word.reverse ++ letters)) rest := by
  induction word generalizing letters with
  | nil => rfl
  | cons c word ih =>
    rw [List.cons_append, scanFrom_quiet (.word (c :: letters)),
      ih (fun d hd => hword d (List.mem_cons_of_mem c hd)), List.reverse_cons, List.append_assoc]
    · rfl
    · rw [step?, if_neg (by simp [hword c (by simp)])]

theorem start?_of_not_wordEnd {c : Char} (h : isWordEnd c = false) :
    start? c = some ([], .word [c]) := by
  simp only [isWordEnd, Bool.or_eq_false_iff, beq_eq_false_iff_ne, Option.isSome_eq_false_iff,
    Option.isNone_iff_eq_none] at h
  obtain ⟨⟨hspace, hquote⟩, hmark⟩ := h
  rw [start?, if_neg (by simp [hspace]), if_neg hquote, hmark]

theorem scansApart_word {word : List Char} {token : Token} (hne : word ≠ [])
    (hword : ∀ c ∈ word, isWordEnd c = false) (htoken : ofWord? word = some token) :
    ScansApart word [token] := by
  intro rest hrest
  obtain ⟨first, others, rfl⟩ := List.exists_cons_of_ne_nil hne
  have hopen : scanFrom .between (first :: others ++ rest) =
      scanFrom (.word (first :: others).reverse) rest := by
    have hfirst : step? .between first = some ([], .word [first]) :=
      start?_of_not_wordEnd (hword first (by simp))
    rw [List.cons_append, scanFrom_quiet _ hfirst,
      scanFrom_word (fun c hc => hword c (List.mem_cons_of_mem first hc)), List.reverse_cons]
  rw [hopen]
  cases rest with
  | nil => simp [scanFrom, htoken]
  | cons c rest =>
    rw [scanFrom_cons, scanFrom_cons, step?, step?, if_pos (hrest c rfl), List.reverse_reverse,
      htoken]
    cases start? c with
    | none => rfl
    | some read => simp [Function.comp_def]

end Token

/-- A piece as it is scanned after it has been printed: a control without an escape of its own is
written by its digits. -/
def Piece.scanned : Piece → Piece
  | .unit value => .unit value
  | .char c =>
    if c.toNat < 0x20 ∧ c ∉ ['\x08', '\x0c', '\n', '\r', '\t'] then .unit c.toNat else .char c

namespace Token

theorem scanFrom_digits {value : Nat} (h : value < 65536) (pieces : List Piece)
    (rest : List Char) :
    scanFrom (.unit pieces 3 0) ((fourDigits value).toList ++ rest) =
      scanFrom (.text (.unit value :: pieces)) rest := by
  have hdigit : ∀ n, hexDigit? (Nat.digitChar (n % 16)) = some (n % 16) :=
    fun n => SessionId.hexDigit?_digitChar ⟨n % 16, Nat.mod_lt n (by decide)⟩
  have hvalue : (((0 * 16 + value / 4096 % 16) * 16 + value / 256 % 16) * 16 +
      value / 16 % 16) * 16 + value % 16 = value := by omega
  rw [fourDigits, String.toList_ofList]
  simp only [List.map_cons, List.map_nil, List.cons_append, List.nil_append, scanFrom_cons, step?,
    hdigit, Option.bind_eq_bind, Option.bind_some, hvalue, Option.map_id']

theorem scanFrom_escape {e c : Char} (hunit : e ≠ 'u') (h : escaped? e = some c)
    (pieces : List Piece) (rest : List Char) :
    scanFrom (.text pieces) ('\\' :: e :: rest) = scanFrom (.text (.char c :: pieces)) rest := by
  rw [scanFrom_quiet (.escape pieces) (by simp [step?]),
    scanFrom_quiet (.text (.char c :: pieces)) (by simp [step?, hunit, h])]

theorem scanFrom_plain {c : Char} (hquote : c ≠ '"') (hback : c ≠ '\\') (hlow : ¬ c.toNat < 0x20)
    (pieces : List Piece) (rest : List Char) :
    scanFrom (.text pieces) (c :: rest) = scanFrom (.text (.char c :: pieces)) rest :=
  scanFrom_quiet _ (by simp [step?, hquote, hback, hlow]) rest

theorem scanFrom_piece (c : Char) (pieces : List Piece) (rest : List Char) :
    scanFrom (.text pieces) ((Piece.render (.char c)).toList ++ rest) =
      scanFrom (.text ((Piece.char c).scanned :: pieces)) rest := by
  have hescape : ∀ {e c : Char}, e ≠ 'u' → escaped? e = some c → (Piece.char c).scanned = .char c →
      scanFrom (.text pieces) ('\\' :: e :: rest) =
        scanFrom (.text ((Piece.char c).scanned :: pieces)) rest := by
    intro e c hunit h hscanned
    rw [scanFrom_escape hunit h, hscanned]
  rw [Piece.render]
  split_ifs with hquote hback hb hf hn hr ht hlow
  · exact hquote ▸ hescape (e := '"') (by decide) rfl (by decide)
  · exact hback ▸ hescape (e := '\\') (by decide) rfl (by decide)
  · exact hb ▸ hescape (e := 'b') (by decide) rfl (by decide)
  · exact hf ▸ hescape (e := 'f') (by decide) rfl (by decide)
  · exact hn ▸ hescape (e := 'n') (by decide) rfl (by decide)
  · exact hr ▸ hescape (e := 'r') (by decide) rfl (by decide)
  · exact ht ▸ hescape (e := 't') (by decide) rfl (by decide)
  · have hscanned : (Piece.char c).scanned = .unit c.toNat := by
      simp [Piece.scanned, hlow, hb, hf, hn, hr, ht]
    have htext : ("\\u" ++ fourDigits c.toNat).toList ++ rest =
        '\\' :: 'u' :: ((fourDigits c.toNat).toList ++ rest) := by simp
    rw [hscanned, ← scanFrom_digits (by omega), htext,
      scanFrom_quiet (.escape pieces) (by simp [step?]),
      scanFrom_quiet (.unit pieces 3 0) (by simp [step?])]
  · have hscanned : (Piece.char c).scanned = .char c := by
      simp [Piece.scanned, hlow]
    rw [hscanned, ← scanFrom_plain hquote hback hlow]
    simp

theorem scanFrom_pieces (cs : List Char) (pieces : List Piece) (rest : List Char) :
    scanFrom (.text pieces)
        ((cs.map Piece.char).flatMap (fun piece => piece.render.toList) ++ '"' :: rest) =
      (scanFrom .between rest).map
        (.text (pieces.reverse ++ (cs.map Piece.char).map Piece.scanned) :: ·) := by
  induction cs generalizing pieces with
  | nil => simp [scanFrom_cons, step?]
  | cons c cs ih =>
    simp only [List.map_cons, List.flatMap_cons, List.append_assoc, scanFrom_piece, ih,
      List.reverse_cons, List.singleton_append]

theorem scans_text (cs : List Char) :
    Scans (renderText (cs.map .char)).toList [.text ((cs.map .char).map Piece.scanned)] := by
  intro rest
  have htext : (renderText (cs.map .char)).toList ++ rest =
      '"' :: ((cs.map Piece.char).flatMap (fun piece => piece.render.toList) ++ '"' :: rest) := by
    simp [renderText, String.toList_join, List.flatMap_map]
  rw [htext, scanFrom_quiet (.text []) rfl, scanFrom_pieces]
  rfl

end Token

namespace Numeral

/-- Only zero begins with a zero. -/
theorem head_toDigits {n : Nat} (h : 0 < n) : ∀ c ∈ (Nat.toDigits 10 n).head?, c ≠ '0' := by
  induction n using Nat.strongRecOn with
  | ind n ih =>
    intro c hc
    by_cases hlt : n < 10
    · rw [Nat.toDigits_of_lt_base hlt] at hc
      obtain rfl : Nat.digitChar n = c := by simpa using hc
      interval_cases n <;> decide
    · rw [Nat.toDigits_of_base_le (by decide) (by omega), List.head?_append,
        Option.or_of_isSome (by simp [Nat.toDigits_ne_nil])] at hc
      exact ih (n / 10) (by omega) (by omega) c hc

theorem toList_render_ofInt (i : Int) :
    (ofInt i).render.toList = (if i < 0 then ['-'] else []) ++ Nat.toDigits 10 i.natAbs := by
  by_cases h : i < 0 <;> simp [render, ofInt, h]

theorem isDigit_toDigits {n : Nat} {c : Char} (h : c ∈ Nat.toDigits 10 n) : c.isDigit = true :=
  Nat.isDigit_of_mem_toDigits (by decide) (by decide) h

/-- Digits without leading zeros are a whole number. -/
theorem ofChars?_digits (negative : Bool) (n : Nat) :
    (match (Nat.toDigits 10 n).takeWhile Char.isDigit with
      | [] => none
      | '0' :: _ :: _ => none
      | whole => afterWhole? negative whole ((Nat.toDigits 10 n).dropWhile Char.isDigit)) =
      some ⟨negative, Nat.toDigits 10 n, [], none⟩ := by
  have htake : (Nat.toDigits 10 n).takeWhile Char.isDigit = Nat.toDigits 10 n :=
    List.takeWhile_eq_self_iff.2 (fun c hc => isDigit_toDigits hc)
  have hdrop : (Nat.toDigits 10 n).dropWhile Char.isDigit = [] :=
    List.dropWhile_eq_nil_iff.2 (fun c hc => isDigit_toDigits hc)
  rw [htake, hdrop]
  split
  · next h => exact absurd h Nat.toDigits_ne_nil
  · next c others h =>
    by_cases hlt : n < 10
    · simp [Nat.toDigits_of_lt_base hlt] at h
    · exact absurd rfl (head_toDigits (n := n) (by omega) '0' (by simp [h]))
  · rfl

theorem ofChars?_render (i : Int) : ofChars? (ofInt i).render.toList = some (ofInt i) := by
  have hunsigned : ofChars? (Nat.toDigits 10 i.natAbs) =
      some ⟨false, Nat.toDigits 10 i.natAbs, [], none⟩ := by
    unfold ofChars?
    split
    next negative unsigned hsplit =>
    split at hsplit
    · next rest hrest =>
      exact absurd (isDigit_toDigits (n := i.natAbs) (hrest ▸ List.mem_cons_self)) (by decide)
    · cases hsplit
      exact ofChars?_digits false i.natAbs
  rw [toList_render_ofInt]
  by_cases h : i < 0
  · rw [if_pos h, List.singleton_append]
    exact (ofChars?_digits true i.natAbs).trans (by simp [ofInt, h])
  · rw [if_neg h, List.nil_append, hunsigned]
    simp [ofInt, h]

end Numeral

namespace Token

theorem isWordEnd_of_isDigit {c : Char} (h : c.isDigit = true) : isWordEnd c = false := by
  have hne : ∀ d : Char, d.isDigit = false → c ≠ d := by
    rintro d hd rfl
    simp [hd] at h
  have hmark : ofMark? c = none := by
    unfold ofMark?
    split
    all_goals first
      | rfl
      | exact absurd h (by decide)
  simp [isWordEnd, isSpace, hmark, hne ' ' rfl, hne '\n' rfl, hne '\t' rfl, hne '\r' rfl,
    hne '"' rfl]

theorem scansApart_number (i : Int) :
    ScansApart (Numeral.ofInt i).render.toList [.number (.ofInt i)] := by
  have hchars : ∀ c ∈ (Numeral.ofInt i).render.toList, c = '-' ∨ c.isDigit = true := by
    intro c hc
    rw [Numeral.toList_render_ofInt, List.mem_append] at hc
    rcases hc with hc | hc
    · split at hc
      · exact .inl (List.mem_singleton.1 hc)
      · exact absurd hc List.not_mem_nil
    · exact .inr (Numeral.isDigit_toDigits hc)
  apply scansApart_word
  · rw [Numeral.toList_render_ofInt]
    exact List.append_ne_nil_of_right_ne_nil _ Nat.toDigits_ne_nil
  · intro c hc
    rcases hchars c hc with rfl | hc
    · decide
    · exact isWordEnd_of_isDigit hc
  · have hname : ∀ name : List Char, (∀ c ∈ name, c ≠ '-' ∧ c.isDigit = false) →
        name ≠ [] → (Numeral.ofInt i).render.toList ≠ name := by
      intro name hname hne heq
      obtain ⟨c, hc⟩ := List.exists_mem_of_ne_nil _ hne
      rcases hchars c (heq ▸ hc) with rfl | hdigit
      · exact (hname _ hc).1 rfl
      · simp [(hname c hc).2] at hdigit
    rw [ofWord?, if_neg (hname _ (by simp) (by decide)),
      if_neg (hname _ (by simp) (by decide)), if_neg (hname _ (by simp) (by decide)),
      Numeral.ofChars?_render]
    rfl

end Token

namespace Tree

/-- Every numeral is that of an integer, and in texts every character stands for itself. -/
inductive Plain : Tree → Prop where
  | null : Plain .null
  | bool (b : Bool) : Plain (.bool b)
  | number (i : Int) : Plain (.number (.ofInt i))
  | text (cs : List Char) : Plain (.text (cs.map .char))
  | list {xs : List Tree} (items : ∀ x ∈ xs, Plain x) : Plain (.list xs)
  | object {ms : List (List Piece × Tree)} (keys : ∀ m ∈ ms, ∃ cs : List Char, m.1 = cs.map .char)
    (values : ∀ m ∈ ms, Plain m.2) : Plain (.object ms)

mutual
/-- The tokens of a printed tree. -/
def tokens : Tree → List Token
  | .null => [.null]
  | .bool b => [.bool b]
  | .number n => [.number n]
  | .text pieces => [.text (pieces.map Piece.scanned)]
  | .list xs => .openList :: ([Token.comma].intercalate (itemTokens xs) ++ [.closeList])
  | .object ms => .openObject :: ([Token.comma].intercalate (memberTokens ms) ++ [.closeObject])
def itemTokens : List Tree → List (List Token)
  | [] => []
  | x :: xs => tokens x :: itemTokens xs
def memberTokens : List (List Piece × Tree) → List (List Token)
  | [] => []
  | (key, x) :: ms =>
    (.text (key.map Piece.scanned) :: .colon :: tokens x) :: memberTokens ms
end

theorem itemTokens_eq_map (xs : List Tree) : itemTokens xs = xs.map tokens := by
  induction xs with
  | nil => rfl
  | cons x xs ih => rw [itemTokens, ih, List.map_cons]

theorem memberTokens_eq_map (ms : List (List Piece × Tree)) :
    memberTokens ms = ms.map fun m => .text (m.1.map Piece.scanned) :: .colon :: m.2.tokens := by
  induction ms with
  | nil => rfl
  | cons m ms ih => rw [memberTokens, ih, List.map_cons]

theorem indentedItems_eq_map (depth : Nat) (xs : List Tree) :
    indentedItems depth xs = xs.map (indentedAt depth) := by
  induction xs with
  | nil => rfl
  | cons x xs ih => rw [indentedItems, ih, List.map_cons]

theorem indentedMembers_eq_map (depth : Nat) (ms : List (List Piece × Tree)) :
    indentedMembers depth ms =
      ms.map fun m => renderText m.1 ++ ": " ++ m.2.indentedAt depth := by
  induction ms with
  | nil => rfl
  | cons m ms ih => rw [indentedMembers, ih, List.map_cons]

theorem compactItems_eq_map (xs : List Tree) : compactItems xs = xs.map compact := by
  induction xs with
  | nil => rfl
  | cons x xs ih => rw [compactItems, ih, List.map_cons]

theorem compactMembers_eq_map (ms : List (List Piece × Tree)) :
    compactMembers ms = ms.map fun m => renderText m.1 ++ ":" ++ m.2.compact := by
  induction ms with
  | nil => rfl
  | cons m ms ih => rw [compactMembers, ih, List.map_cons]

section Container

open Token

variable {α : Type} {text : α → String} {read : α → List Token} {xs : List α}

/-- Parts with commas between them and a mark after the last are scanned part by part. -/
theorem scans_parts (hxs : ∀ x ∈ xs, ScansApart (text x).toList (read x)) (hne : xs ≠ [])
    {between closing : List Char} {c : Char} {closed : List Token} (hend : isWordEnd c = true)
    (hbetween : Scans (',' :: between) [.comma]) (hclosing : Scans (c :: closing) closed) :
    Scans ((',' :: between).intercalate (xs.map (fun x => (text x).toList)) ++ c :: closing)
      ([Token.comma].intercalate (xs.map read) ++ closed) := by
  induction xs with
  | nil => exact absurd rfl hne
  | cons x xs ih =>
    have hx := hxs x (by simp)
    cases xs with
    | nil =>
      simp only [List.map_cons, List.map_nil, List.intercalate_singleton]
      exact hx.append hend hclosing
    | cons y ys =>
      have hothers := ih (fun z hz => hxs z (List.mem_cons_of_mem x hz)) (by simp)
      have hrest := hx.append (by decide) (hbetween.append hothers)
      simpa [List.intercalate_cons_cons] using hrest

/-- A container is scanned, whether its parts stand on lines of their own or not. -/
theorem scans_container (hxs : ∀ x ∈ xs, ScansApart (text x).toList (read x))
    {opening closing : Char} {opened closed : Token} (hopening : Scans [opening] [opened])
    (hclosing : Scans [closing] [closed]) (hend : isWordEnd closing = true)
    (inner outer : List Char) (hinner : ∀ c ∈ inner, isSpace c = true)
    (houter : ∀ c ∈ outer, isSpace c = true) (hne : xs ≠ []) :
    Scans (opening :: (inner ++ ((',' :: inner).intercalate (xs.map (fun x => (text x).toList)) ++
        (outer ++ [closing]))))
      (opened :: ([Token.comma].intercalate (xs.map read) ++ [closed])) := by
  have hcomma : Scans [','] [.comma] := scans_mark rfl (by decide) (by decide)
  have hlast : Scans (outer ++ [closing]) [closed] := (scans_spaces houter).append hclosing
  obtain ⟨c, cs, hcs, hc⟩ : ∃ c cs, outer ++ [closing] = c :: cs ∧ isWordEnd c = true := by
    cases outer with
    | nil => exact ⟨closing, [], rfl, hend⟩
    | cons c cs => exact ⟨c, cs ++ [closing], rfl, by simp [isWordEnd, houter c (by simp)]⟩
  rw [hcs] at hlast ⊢
  have hparts := scans_parts hxs hne hc (hcomma.append (scans_spaces hinner)) hlast
  exact hopening.append ((scans_spaces hinner).append hparts)

end Container

open Token

theorem scansApart_null : ScansApart "null".toList [.null] :=
  scansApart_word (by decide) (by simp [isWordEnd, isSpace, ofMark?]) rfl

theorem scansApart_bool (b : Bool) :
    ScansApart (if b then "true" else "false").toList [.bool b] := by
  cases b
  · exact scansApart_word (by decide) (by simp [isWordEnd, isSpace, ofMark?]) rfl
  · exact scansApart_word (by decide) (by simp [isWordEnd, isSpace, ofMark?]) rfl

theorem isSpace_lineAt {depth : Nat} {c : Char} (h : c ∈ (lineAt depth).toList) :
    isSpace c = true := by
  rw [lineAt, String.toList_append, List.mem_append] at h
  rcases h with h | h
  · obtain rfl : c = '\n' := by simpa using h
    decide
  · rw [String.toList_ofList] at h
    rw [List.eq_of_mem_replicate h]
    decide

theorem toList_block (opening closing : String) (depth : Nat) {parts : List String}
    (hne : parts ≠ []) :
    (block opening closing depth parts).toList =
      opening.toList ++ ((lineAt (depth + 1)).toList ++
        ((',' :: (lineAt (depth + 1)).toList).intercalate (parts.map String.toList) ++
          ((lineAt depth).toList ++ closing.toList))) := by
  rw [block, if_neg (by simpa using hne)]
  simp [String.toList_intercalate]

/-- A member is scanned as its key, a colon and its value. -/
theorem scansApart_member {key : List Piece} (hkey : ∃ cs : List Char, key = cs.map .char)
    {value : List Char} (blanks : List Char) (hblanks : ∀ c ∈ blanks, isSpace c = true)
    {read : List Token}
    (hvalue : ScansApart value read) :
    ScansApart ((renderText key).toList ++ ':' :: (blanks ++ value))
      (.text (key.map Piece.scanned) :: .colon :: read) := by
  obtain ⟨cs, rfl⟩ := hkey
  have hcolon : Scans [':'] [.colon] := scans_mark rfl (by decide) (by decide)
  have hfront := (scans_text cs).append (hcolon.append (scans_spaces hblanks))
  intro rest hrest
  have hsplit : (renderText (cs.map Piece.char)).toList ++ ':' :: (blanks ++ value) ++ rest =
      ((renderText (cs.map Piece.char)).toList ++ ([':'] ++ blanks)) ++ (value ++ rest) := by simp
  rw [hsplit, hfront, hvalue rest hrest, Option.map_map]
  rfl

theorem scans_openList : Scans ['['] [.openList] := scans_mark rfl (by decide) (by decide)

theorem scans_closeList : Scans [']'] [.closeList] := scans_mark rfl (by decide) (by decide)

theorem scans_openObject : Scans ['\x7b'] [.openObject] := scans_mark rfl (by decide) (by decide)

theorem scans_closeObject : Scans ['\x7d'] [.closeObject] := scans_mark rfl (by decide) (by decide)

/-- What is printed on indented lines is scanned as the tokens of the tree. -/
theorem scansApart_indentedAt {tree : Tree} (h : tree.Plain) (depth : Nat) :
    ScansApart (tree.indentedAt depth).toList tree.tokens := by
  induction h generalizing depth with
  | null => exact scansApart_null
  | bool b => exact scansApart_bool b
  | number i => exact scansApart_number i
  | text cs => exact (scans_text cs).apart
  | @list xs _ ih =>
    rw [indentedAt, tokens, indentedItems_eq_map, itemTokens_eq_map]
    by_cases hne : xs = []
    · simpa [hne, block] using (scans_openList.append scans_closeList).apart
    · rw [toList_block _ _ _ (by simpa using hne), List.map_map]
      exact (scans_container (fun x hx => ih x hx (depth + 1)) scans_openList scans_closeList
        (by decide) _ _ (fun c => isSpace_lineAt) (fun c => isSpace_lineAt) hne).apart
  | @object ms keys _ ih =>
    rw [indentedAt, tokens, indentedMembers_eq_map, memberTokens_eq_map]
    by_cases hne : ms = []
    · simpa [hne, block] using (scans_openObject.append scans_closeObject).apart
    · rw [toList_block _ _ _ (by simpa using hne), List.map_map]
      refine (scans_container (fun m hm => ?_) scans_openObject scans_closeObject
        (by decide) _ _ (fun c => isSpace_lineAt) (fun c => isSpace_lineAt) hne).apart
      have hmember := scansApart_member (keys m hm) [' '] (by simp [isSpace])
        (ih m hm (depth + 1))
      simpa using hmember

/-- What is printed without blanks is scanned as the same tokens. -/
theorem scansApart_compact {tree : Tree} (h : tree.Plain) :
    ScansApart tree.compact.toList tree.tokens := by
  induction h with
  | null => exact scansApart_null
  | bool b => exact scansApart_bool b
  | number i => exact scansApart_number i
  | text cs => exact (scans_text cs).apart
  | @list xs _ ih =>
    rw [compact, tokens, compactItems_eq_map, itemTokens_eq_map]
    by_cases hne : xs = []
    · simpa [hne, block] using (scans_openList.append scans_closeList).apart
    · have hscan := (scans_container ih scans_openList scans_closeList (by decide) [] [] (by simp)
        (by simp) hne).apart
      simpa [String.toList_intercalate, Function.comp_def] using hscan
  | @object ms keys _ ih =>
    rw [compact, tokens, compactMembers_eq_map, memberTokens_eq_map]
    by_cases hne : ms = []
    · simpa [hne, block] using (scans_openObject.append scans_closeObject).apart
    · have hmembers : ∀ m ∈ ms, ScansApart (renderText m.1 ++ ":" ++ m.2.compact).toList
          (.text (m.1.map Piece.scanned) :: .colon :: m.2.tokens) := by
        intro m hm
        have hmember := scansApart_member (keys m hm) [] (by simp) (ih m hm)
        simpa using hmember
      have hscan := (scans_container hmembers scans_openObject scans_closeObject (by decide) [] []
        (by simp) (by simp) hne).apart
      simpa [String.toList_intercalate, Function.comp_def] using hscan

theorem scan_of_scansApart {text : String} {tokens : List Token}
    (h : ScansApart text.toList tokens) : scan text = some tokens := by
  have hscan := h [] (by simp)
  rw [List.append_nil] at hscan
  rw [scan, hscan]
  simp [scanFrom]

end Tree

end Statechart.Json
