import LiftedPlanning.Json.Reader
import Mathlib.Data.List.TakeWhile

/-!
# Reading what was written

The text of a JSON value that is built of texts, integers, Booleans and `null` (`Json.Plain`) is
read back as that value (`Json.parse?_render`), so it determines the value (`Json.render_inj`).

Text is followed in the two passes of the reader at once: `Takes cs p q` says that the characters
`cs` are cut into tokens that take the cursor from `p` to `q`. A word is only cut where it ends, so
what stands behind it matters, but no more than its first character.
-/

namespace LiftedPlanning.Json

/-! ## Literals -/

/-- A character is escaped by a letter, by its number, or not at all. -/
theorem escapeChar_cases (c : Char) :
    (∃ d, escapeChar c = ['\\', d] ∧ (simpleEscape? d).isSome ∧ d ≠ 'u' ∧ ¬ d.toNat < 32) ∨
    (∃ m n, m < 16 ∧ n < 16 ∧ escapeChar c = ['\\', 'u', '0', '0', hexDigit m, hexDigit n]) ∨
    (escapeChar c = [c] ∧ c ≠ '"' ∧ c ≠ '\\' ∧ ¬ c.toNat < 32) := by
  by_cases hquote : c = '"'
  · subst hquote
    exact .inl ⟨'"', rfl, by decide, by decide, by decide⟩
  by_cases hbackslash : c = '\\'
  · subst hbackslash
    exact .inl ⟨'\\', rfl, by decide, by decide, by decide⟩
  by_cases hn : c = '\n'
  · subst hn
    exact .inl ⟨'n', rfl, by decide, by decide, by decide⟩
  by_cases hr : c = '\r'
  · subst hr
    exact .inl ⟨'r', rfl, by decide, by decide, by decide⟩
  by_cases ht : c = '\t'
  · subst ht
    exact .inl ⟨'t', rfl, by decide, by decide, by decide⟩
  by_cases hb : c = '\x08'
  · subst hb
    exact .inl ⟨'b', rfl, by decide, by decide, by decide⟩
  by_cases hf : c = '\x0c'
  · subst hf
    exact .inl ⟨'f', rfl, by decide, by decide, by decide⟩
  rw [escapeChar, if_neg hquote, if_neg hbackslash, if_neg hn, if_neg hr, if_neg ht, if_neg hb,
    if_neg hf]
  by_cases hcontrol : c.toNat < 32
  · rw [if_pos hcontrol]
    exact .inr (.inl ⟨_, _, by omega, by omega, rfl⟩)
  · rw [if_neg hcontrol]
    exact .inr (.inr ⟨rfl, hquote, hbackslash, hcontrol⟩)

theorem hexDigit_plain :
    ∀ n < 16, hexDigit n ≠ '"' ∧ hexDigit n ≠ '\\' ∧ ¬ (hexDigit n).toNat < 32 := by
  decide

theorem hexUnit?_isSome {m n : Nat} (hm : m < 16) (hn : n < 16) :
    (hexUnit? '0' '0' (hexDigit m) (hexDigit n)).isSome = true := by
  have hzero : hexValue? '0' = some 0 := rfl
  rw [hexUnit?, hzero, hexValue?_hexDigit m hm, hexValue?_hexDigit n hn]
  rfl

theorem isStringLiteral_escape (cs : List Char) : isStringLiteral (escape cs) = true := by
  induction cs with
  | nil => rfl
  | cons c cs ih =>
    rw [escape, List.flatMap_cons]
    rcases escapeChar_cases c with ⟨d, hd, hletter, hu, _⟩ | ⟨m, n, hm, hn, hd⟩ | ⟨hd, _, hc, _⟩
    · rw [hd]
      show isStringLiteral ('\\' :: d :: escape cs) = true
      rw [isStringLiteral, hletter, ih]
      · rfl
      · intro _ _ _ _ _ h
        exact absurd h hu
    · rw [hd]
      show isStringLiteral ('\\' :: 'u' :: '0' :: '0' :: _ :: _ :: escape cs) = true
      rw [isStringLiteral, hexUnit?_isSome hm hn, ih]
      rfl
    · rw [hd]
      show isStringLiteral (c :: escape cs) = true
      rw [isStringLiteral, ih, bne_iff_ne.mpr hc]
      · rfl
      · intro _ _ _ _ _ h
        exact absurd h hc
      · intro _ _ h
        exact absurd h hc

section Lexing

variable {read cs rest : List Char} {c : Char}

/-- In a string, a plain character is read. -/
theorem lex_plain (hquote : c ≠ '"') (hbackslash : c ≠ '\\') (hcontrol : ¬ c.toNat < 32) :
    lex (.string read) (c :: rest) = lex (.string (c :: read)) rest := by
  rw [lex, if_neg hquote, if_neg hbackslash, if_neg hcontrol]

/-- In a string, a backslash is read with the character behind it. -/
theorem lex_backslash (hcontrol : ¬ c.toNat < 32) :
    lex (.string read) ('\\' :: c :: rest) = lex (.string (c :: '\\' :: read)) rest := by
  rw [lex, if_neg (by decide), if_pos rfl, lex, if_neg hcontrol]

theorem lex_escapeChar :
    lex (.string read) (escapeChar c ++ rest) =
      lex (.string ((escapeChar c).reverse ++ read)) rest := by
  rcases escapeChar_cases c with ⟨d, hd, _, _, hcontrol⟩ | ⟨m, n, hm, hn, hd⟩ | ⟨hd, hplain⟩
  · rw [hd]
    exact lex_backslash hcontrol
  · rw [hd]
    obtain ⟨hquote, hbackslash, hcontrol⟩ := hexDigit_plain m hm
    obtain ⟨hquote', hbackslash', hcontrol'⟩ := hexDigit_plain n hn
    show lex (.string read) ('\\' :: 'u' :: '0' :: '0' :: hexDigit m :: hexDigit n :: rest) = _
    rw [lex_backslash (by decide), lex_plain (by decide) (by decide) (by decide),
      lex_plain (by decide) (by decide) (by decide), lex_plain hquote hbackslash hcontrol,
      lex_plain hquote' hbackslash' hcontrol']
    rfl
  · obtain ⟨hquote, hbackslash, hcontrol⟩ := hplain
    rw [hd]
    exact lex_plain hquote hbackslash hcontrol

theorem lex_escape :
    lex (.string read) (escape cs ++ rest) = lex (.string ((escape cs).reverse ++ read)) rest := by
  induction cs generalizing read with
  | nil => rfl
  | cons c cs ih =>
    rw [escape, List.flatMap_cons, List.append_assoc, lex_escapeChar]
    show lex _ (escape cs ++ rest) = _
    rw [ih, List.reverse_append, List.append_assoc]
    rfl

end Lexing

/-! ## Numerals -/

theorem toDigits_head {n : Nat} (h : 0 < n) : (Nat.toDigits 10 n).head? ≠ some '0' := by
  induction n using Nat.strongRecOn with
  | ind n ih =>
    by_cases hn : n < 10
    · have hdigit : ∀ m < 10, 0 < m → [Nat.digitChar m].head? ≠ some '0' := by decide
      rw [Nat.toDigits_of_lt_base hn]
      exact hdigit n hn h
    · rw [Nat.toDigits_of_base_le (by decide) (by omega), List.head?_append]
      have hquotient := ih (n / 10) (by omega) (by omega)
      rwa [List.head?_eq_some_head Nat.toDigits_ne_nil] at hquotient ⊢

theorem isUnsignedNumeral_toDigits (n : Nat) : isUnsignedNumeral (Nat.toDigits 10 n) = true := by
  rcases Nat.eq_zero_or_pos n with rfl | hpos
  · decide
  have hhead := toDigits_head hpos
  have hall : (Nat.toDigits 10 n).all Char.isDigit = true :=
    List.all_eq_true.mpr fun c hc => Nat.isDigit_of_mem_toDigits (by decide) (by decide) hc
  obtain ⟨c, cs, hcs⟩ := List.exists_cons_of_ne_nil (Nat.toDigits_ne_nil (n := n) (b := 10))
  rw [hcs] at hall hhead ⊢
  have htake : (c :: cs).takeWhile Char.isDigit = c :: cs :=
    List.takeWhile_eq_self_iff.mpr (List.all_eq_true.mp hall)
  have hdrop : (c :: cs).dropWhile Char.isDigit = [] :=
    List.dropWhile_eq_nil_iff.mpr (List.all_eq_true.mp hall)
  rw [isUnsignedNumeral]
  · rw [htake, hdrop, isDigits, hall]
    rfl
  · rintro rest hrest
    cases hrest
    exact hhead rfl

/-- The digits of a number, behind a sign if it is negative. -/
theorem toList_toString (n : Int) :
    (toString n).toList = Nat.toDigits 10 n.toNat ∨
      (toString n).toList = '-' :: Nat.toDigits 10 (-n).toNat := by
  rw [Int.toString_eq_repr, Int.repr_eq_if]
  split
  · rw [Nat.repr_eq_ofList_toDigits, String.toList_ofList]
    exact .inl rfl
  · rw [Nat.repr_eq_ofList_toDigits, String.toList_append, String.toList_ofList,
      String.toList_ofList]
    exact .inr rfl

theorem isNumeral_toString (n : Int) : isNumeral (toString n).toList = true := by
  rcases toList_toString n with h | h
  · rw [h, isNumeral]
    · exact isUnsignedNumeral_toDigits _
    · intro rest hrest
      have hminus : '-' ∈ Nat.toDigits 10 n.toNat := hrest ▸ List.mem_cons_self
      have hdigit := Nat.isDigit_of_mem_toDigits (by decide) (by decide) hminus
      revert hdigit
      decide
  · rw [h]
    exact isUnsignedNumeral_toDigits _

theorem endsWord_of_isDigit {c : Char} (h : c.isDigit = true) : endsWord c = false := by
  have hne : ∀ d : Char, d.isDigit = false → c ≠ d := by
    rintro d hd rfl
    cases h.symm.trans hd
  have hpunctuation : punctuation? c = none := by
    unfold punctuation?
    split
    iterate 6 exact absurd h (by decide)
    rfl
  rw [endsWord, isBlank, decide_eq_false (hne ' ' rfl), decide_eq_false (hne '\n' rfl),
    decide_eq_false (hne '\t' rfl), decide_eq_false (hne '\r' rfl), beq_false_of_ne (hne '"' rfl),
    hpunctuation]
  rfl

/-! ## Words and punctuation marks -/

/-- What may stand behind a word: nothing, or a character that ends it. -/
def Ends (rest : List Char) : Prop := ∀ c ∈ rest.head?, endsWord c = true

/-- Characters that are cut into tokens, with no part of a word left over. -/
def Cuts (cs : List Char) (ts : List Token) : Prop :=
  ∀ rest, Ends rest → lex .between (cs ++ rest) = (lex .between rest).map (ts ++ ·)

section Words

variable {w rest read : List Char} {c : Char} {j : Json} {t : Token}

theorem startToken_of_word (h : endsWord c = false) :
    startToken c = some (none, .word [c]) := by
  simp only [endsWord, Bool.or_eq_false_iff, beq_eq_false_iff_ne] at h
  obtain ⟨⟨hblank, hquote⟩, hpunctuation⟩ := h
  rw [startToken, hblank, if_neg (by decide), if_neg hquote,
    Option.isSome_eq_false_iff.mp hpunctuation |> Option.isNone_iff_eq_none.mp]

theorem lex_word_append (h : ∀ c ∈ w, endsWord c = false) :
    lex (.word read) (w ++ rest) = lex (.word (w.reverse ++ read)) rest := by
  induction w generalizing read with
  | nil => rfl
  | cons c w ih =>
    obtain ⟨hc, hw⟩ := List.forall_mem_cons.mp h
    rw [List.cons_append, lex, hc, if_neg (by decide), ih hw, List.reverse_cons, List.append_assoc]
    rfl

/-- Where a word ends, the scalar that it writes is cut off. -/
theorem lex_word_end (hj : word? read.reverse = some j) (hrest : Ends rest) :
    lex (.word read) rest = (lex .between rest).map (.scalar j :: ·) := by
  cases rest with
  | nil =>
    rw [lex, lex, hj]
    rfl
  | cons c rest =>
    rw [lex, lex, if_pos (hrest c rfl), hj]
    cases startToken c with
    | none => rfl
    | some next =>
      show ((lex next.2 rest).bind fun ts => some (.scalar j :: (next.1.toList ++ ts))) =
        ((lex next.2 rest).bind fun ts => some (next.1.toList ++ ts)).map _
      cases lex next.2 rest <;> rfl

theorem lex_enter {next : Lexing} (h : startToken c = some (none, next)) :
    lex .between (c :: rest) = lex next rest := by
  rw [lex, h]
  exact Option.bind_fun_some _

theorem lex_mark (h : startToken c = some (some t, .between)) :
    lex .between (c :: rest) = (lex .between rest).map (t :: ·) := by
  rw [lex, h]
  show ((lex .between rest).bind fun ts => some (t :: ts)) = _
  cases lex .between rest <;> rfl

theorem Cuts.word (hne : w ≠ []) (hw : ∀ c ∈ w, endsWord c = false) (hj : word? w = some j) :
    Cuts w [.scalar j] := by
  intro rest hrest
  obtain ⟨c, w, rfl⟩ := List.exists_cons_of_ne_nil hne
  obtain ⟨hc, hw⟩ := List.forall_mem_cons.mp hw
  have hread : word? (w.reverse ++ [c]).reverse = some j := by
    rwa [List.reverse_append, List.reverse_reverse]
  rw [List.cons_append, lex_enter (startToken_of_word hc), lex_word_append hw,
    lex_word_end hread hrest]
  rfl

end Words

/-- A text between its quotes. -/
theorem Cuts.string (cs : List Char) :
    Cuts ('"' :: (escape cs ++ ['"'])) [.string (String.ofList (escape cs))] := by
  intro rest _
  rw [List.cons_append, List.append_assoc, lex_enter rfl, lex_escape, List.append_nil,
    List.singleton_append, lex, if_pos rfl, List.reverse_reverse,
    if_pos (isStringLiteral_escape cs)]
  cases lex .between rest <;> rfl

/-! ## Values -/

/-- Characters whose tokens take the cursor from one place to another. -/
def Takes (cs : List Char) (p q : Cursor) : Prop :=
  ∃ ts, Cuts cs ts ∧ ts.foldlM Cursor.step p = some q

namespace Takes

variable {cs cs' : List Char} {c : Char} {t : Token} {p q r s : Cursor} {stack stack' : List Frame}
  {j : Json}

theorem nil (p : Cursor) : Takes [] p p := by
  refine ⟨[], fun rest _ => ?_, rfl⟩
  show lex .between rest = (lex .between rest).map id
  rw [Option.map_id]
  rfl

theorem of_token (h : Cuts cs [t]) (hstep : p.step t = some q) : Takes cs p q := by
  refine ⟨[t], h, ?_⟩
  rw [List.foldlM_cons, hstep]
  rfl

/-- A punctuation mark in front. -/
theorem mark (hc : startToken c = some (some t, .between)) (hstep : p.step t = some q)
    (h : Takes cs q r) : Takes (c :: cs) p r := by
  obtain ⟨ts, hts, hfold⟩ := h
  refine ⟨t :: ts, fun rest hrest => ?_, ?_⟩
  · rw [List.cons_append, lex_mark hc, hts rest hrest, Option.map_map]
    rfl
  · rw [List.foldlM_cons, hstep]
    exact hfold

/-- What stands behind must not continue a word. -/
theorem append (h : Takes cs p q) (h' : Takes (c :: cs') q r) (hc : endsWord c = true) :
    Takes (cs ++ c :: cs') p r := by
  obtain ⟨ts, hts, hfold⟩ := h
  obtain ⟨ts', hts', hfold'⟩ := h'
  refine ⟨ts ++ ts', fun rest hrest => ?_, ?_⟩
  · have hends : Ends (c :: cs' ++ rest) := by
      rintro d ⟨⟩
      exact hc
    rw [List.append_assoc, hts _ hends, hts' rest hrest, Option.map_map]
    refine congrArg (fun f => (lex .between rest).map f) (funext fun us => ?_)
    exact (List.append_assoc ..).symm
  · rw [List.foldlM_append, hfold]
    exact hfold'

/-- The first item of an array stands where the array could also have been closed. -/
theorem firstItem (h : Takes cs (.value (.items [] :: stack)) (.after j stack')) :
    Takes cs (.firstItem stack) (.after j stack') := by
  obtain ⟨ts, hts, hfold⟩ := h
  refine ⟨ts, hts, ?_⟩
  cases ts with
  | nil => cases hfold
  | cons t ts =>
    rw [List.foldlM_cons] at hfold ⊢
    cases t with
    | closeArray => cases hfold
    | _ => exact hfold

end Takes

/-- The text of a value, wherever a value may stand. -/
def Reads (cs : List Char) (j : Json) : Prop :=
  ∀ stack, Takes cs (.value stack) (.after j stack)

def chars (j : Json) : List Char := (render j).toList

def fieldChars (f : String × Json) : List Char := (renderField f).toList

theorem chars_array (items : List Json) :
    chars (.array items) = '[' :: ([','].intercalate (items.map chars) ++ [']']) := by
  rw [chars, render_array, String.toList_append, String.toList_append, String.toList_intercalate,
    List.map_map]
  rfl

theorem chars_object (fields : List (String × Json)) :
    chars (.object fields) = '\x7b' :: ([','].intercalate (fields.map fieldChars) ++ ['\x7d']) := by
  rw [chars, render_object, String.toList_append, String.toList_append, String.toList_intercalate,
    List.map_map]
  rfl

theorem reads_scalar {cs : List Char} {j : Json} (h : Cuts cs [.scalar j]) : Reads cs j :=
  fun _ => .of_token h rfl

theorem takes_items {items : List Json} {j : Json} {done : List Json} {stack : List Frame}
    (h : ∀ k ∈ j :: items, Reads (chars k) k) :
    Takes ([','].intercalate ((j :: items).map chars) ++ [']']) (.value (.items done :: stack))
      (.after (.array (done.reverse ++ j :: items)) stack) := by
  induction items generalizing j done with
  | nil =>
    have hclose : Takes [']'] (.after j (.items done :: stack))
        (.after (.array (done.reverse ++ [j])) stack) := by
      refine .mark rfl ?_ (.nil _)
      rw [← List.reverse_cons]
      rfl
    rw [List.map_singleton, List.intercalate_singleton]
    exact (h j List.mem_cons_self _).append hclose rfl
  | cons k items ih =>
    obtain ⟨hj, hrest⟩ := List.forall_mem_cons.mp h
    have htail := @ih k (j :: done) hrest
    rw [List.reverse_cons, List.append_assoc] at htail
    rw [List.map_cons, List.map_cons, List.intercalate_cons_cons, List.append_assoc,
      List.append_assoc]
    exact (hj _).append (.mark rfl rfl htail) rfl

theorem reads_array {items : List Json} (h : ∀ j ∈ items, Reads (chars j) j) :
    Reads (chars (.array items)) (.array items) := by
  intro stack
  rw [chars_array]
  cases items with
  | nil => exact .mark rfl rfl (.mark rfl rfl (.nil _))
  | cons j items => exact .mark rfl rfl (takes_items h).firstItem

theorem fieldChars_eq (k : String) (j : Json) :
    fieldChars (literalOf k, j) = '"' :: (escape k.toList ++ ['"']) ++ ':' :: chars j := by
  rw [fieldChars, renderField, String.toList_append, String.toList_append, String.toList_append,
    toList_literalOf]
  show ['"'] ++ escape k.toList ++ ['"', ':'] ++ chars j = _
  simp

/-- A field, at a cursor that takes a key. -/
theorem takes_field {k : String} {j : Json} {done : List (String × Json)} {stack : List Frame}
    {p : Cursor} (hp : ∀ l, p.step (.string l) = some (.colon done l stack))
    (h : Reads (chars j) j) :
    Takes (fieldChars (literalOf k, j)) p (.after j (.fields done (literalOf k) :: stack)) := by
  have hkey := Takes.of_token (.string k.toList) (hp _)
  rw [← literalOf] at hkey
  rw [fieldChars_eq]
  exact hkey.append (.mark rfl rfl (h _)) rfl

theorem takes_fields {fields : List (String × Json)} {f : String × Json}
    {done : List (String × Json)} {stack : List Frame} {p : Cursor}
    (hp : ∀ l, p.step (.string l) = some (.colon done l stack))
    (h : ∀ g ∈ f :: fields, Reads (chars g.2) g.2) :
    Takes ([','].intercalate (((f :: fields).map fun g => (literalOf g.1, g.2)).map fieldChars) ++
        ['\x7d']) p
      (.after (.object (done.reverse ++ (f :: fields).map fun g => (literalOf g.1, g.2))) stack) := by
  induction fields generalizing f done p with
  | nil =>
    have hclose : Takes ['\x7d'] (.after f.2 (.fields done (literalOf f.1) :: stack))
        (.after (.object (done.reverse ++ [(literalOf f.1, f.2)])) stack) := by
      refine .mark rfl ?_ (.nil _)
      rw [← List.reverse_cons]
      rfl
    rw [List.map_singleton, List.map_singleton, List.intercalate_singleton]
    exact (takes_field hp (h f List.mem_cons_self)).append hclose rfl
  | cons g fields ih =>
    obtain ⟨hf, hrest⟩ := List.forall_mem_cons.mp h
    have htail := @ih g ((literalOf f.1, f.2) :: done)
      (.key ((literalOf f.1, f.2) :: done) stack) (fun _ => rfl) hrest
    rw [List.reverse_cons, List.append_assoc] at htail
    rw [List.map_cons, List.map_cons, List.map_cons, List.map_cons, List.intercalate_cons_cons,
      List.append_assoc, List.append_assoc]
    exact (takes_field hp hf).append (.mark rfl rfl htail) rfl

theorem reads_object {fields : List (String × Json)} (h : ∀ f ∈ fields, Reads (chars f.2) f.2) :
    Reads (chars (ofFields fields)) (ofFields fields) := by
  intro stack
  rw [ofFields, chars_object]
  cases fields with
  | nil => exact .mark rfl rfl (.mark rfl rfl (.nil _))
  | cons f fields => exact .mark rfl rfl (@takes_fields fields f [] stack _ (fun _ => rfl) h)

/-! ## Built values -/

/-- Values that are built of texts, integers, Booleans and `null`. -/
inductive Plain : Json → Prop where
  | null : Plain .null
  | bool (b : Bool) : Plain (.bool b)
  | integer (n : Int) : Plain (ofInt n)
  | text (s : String) : Plain (ofString s)
  | array {items : List Json} : (∀ j ∈ items, Plain j) → Plain (.array items)
  | fields {fields : List (String × Json)} : (∀ f ∈ fields, Plain f.2) → Plain (ofFields fields)

theorem reads_integer (n : Int) : Reads (chars (ofInt n)) (ofInt n) := by
  have hchars : chars (ofInt n) = (toString n).toList := by
    rw [chars, ofInt, render, renderOnto, String.empty_append]
  have hnumeral := isNumeral_toString n
  have hne : ∀ w, isNumeral w = false → (toString n).toList ≠ w := by
    rintro w hw rfl
    cases hnumeral.symm.trans hw
  have hword : word? (toString n).toList = some (ofInt n) := by
    rw [word?, if_neg (hne _ (by decide)), if_neg (hne _ (by decide)),
      if_neg (hne _ (by decide)), if_pos hnumeral, String.ofList_toList]
    rfl
  have hends : ∀ c ∈ (toString n).toList, endsWord c = false := by
    have hdigits : ∀ m, ∀ c ∈ Nat.toDigits 10 m, endsWord c = false := fun m c hc =>
      endsWord_of_isDigit (Nat.isDigit_of_mem_toDigits (by decide) (by decide) hc)
    rcases toList_toString n with h | h
    · rw [h]
      exact hdigits _
    · rw [h]
      exact List.forall_mem_cons.mpr ⟨by decide, hdigits _⟩
  rw [hchars]
  exact reads_scalar (.word (hne _ (by decide)) hends hword)

theorem reads_word {j : Json} (hne : chars j ≠ []) (hw : (chars j).all fun c => !endsWord c)
    (hj : word? (chars j) = some j) : Reads (chars j) j := by
  refine reads_scalar (.word hne (fun c hc => ?_) hj)
  have hc := List.all_eq_true.mp hw c hc
  rwa [Bool.not_eq_true'] at hc

theorem Plain.reads {j : Json} (h : Plain j) : Reads (chars j) j := by
  induction h with
  | null => exact reads_word (by decide) (by decide) rfl
  | bool b =>
    cases b with
    | false => exact reads_word (by decide) (by decide) rfl
    | true => exact reads_word (by decide) (by decide) rfl
  | integer n => exact reads_integer n
  | text s =>
    have hchars : chars (ofString s) = '"' :: (escape s.toList ++ ['"']) := by
      rw [chars, ofString, render, renderOnto, String.empty_append, String.toList_append,
        String.toList_append, toList_literalOf]
      rfl
    intro stack
    rw [hchars]
    have htoken := Takes.of_token (p := .value stack) (.string s.toList) rfl
    rwa [← literalOf] at htoken
  | array _ ih => exact reads_array ih
  | fields _ ih => exact reads_object ih

/-- A built value is read back from its text. -/
theorem parse?_render {j : Json} (h : Plain j) : parse? j.render = some j := by
  obtain ⟨ts, hts, hfold⟩ := h.reads []
  have hlex := hts [] nofun
  rw [List.append_nil] at hlex
  rw [parse?]
  show (lex .between (chars j)).bind ofTokens? = some j
  rw [hlex, lex, Option.map_some, Option.bind_some, List.append_nil, ofTokens?, hfold]

/-- The text of a built value determines it. -/
theorem render_inj {j k : Json} (hj : Plain j) (hk : Plain k) (h : j.render = k.render) :
    j = k := by
  have hparse := parse?_render hj
  rw [h, parse?_render hk] at hparse
  exact (Option.some.inj hparse).symm

end LiftedPlanning.Json
