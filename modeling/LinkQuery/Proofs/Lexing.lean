import LinkQuery.Proofs.Beginnings
/-!
# Texts of single tokens

Which texts literals, keywords and names accept. A name that ends where a keyword would end is
matched by the keyword only if it spells that keyword in some letter case.

Main statements:
- `Rule.Accepts.literal`, `Rule.Accepts.keyword`, `Rule.Accepts.word`: the texts of tokens.
- `Rule.keyword_on_name`: a keyword in front of a name.
-/
namespace LinkQuery

/-! ## Letter case -/

namespace Text

theorem toNat_toLower (c : Char) :
    c.toLower.toNat = if 65 ≤ c.toNat ∧ c.toNat ≤ 90 then c.toNat + 32 else c.toNat := by
  have hval : c.val.toNat = c.toNat := rfl
  have hfirst : 'A'.val.toNat = 65 := rfl
  have hlast : 'Z'.val.toNat = 90 := rfl
  unfold Char.toLower
  split
  · rename_i h
    simp only [ge_iff_le, UInt32.le_iff_toNat_le] at h
    have hstep : ('a'.val - 'A'.val).toNat = 32 := rfl
    rw [if_pos (by omega)]
    show (c.val + ('a'.val - 'A'.val)).toNat = _
    rw [UInt32.toNat_add]
    omega
  · rename_i h
    simp only [ge_iff_le, UInt32.le_iff_toNat_le] at h
    rw [if_neg (by omega)]

theorem toNat_toUpper (c : Char) :
    c.toUpper.toNat = if 97 ≤ c.toNat ∧ c.toNat ≤ 122 then c.toNat - 32 else c.toNat := by
  have hval : c.val.toNat = c.toNat := rfl
  have hfirst : 'a'.val.toNat = 97 := rfl
  have hlast : 'z'.val.toNat = 122 := rfl
  unfold Char.toUpper
  split
  · rename_i h
    simp only [UInt32.le_iff_toNat_le] at h
    have hstep : ('A'.val - 'a'.val).toNat = 4294967264 := rfl
    rw [if_pos (by omega)]
    show (c.val + ('A'.val - 'a'.val)).toNat = _
    rw [UInt32.toNat_add]
    omega
  · rename_i h
    simp only [UInt32.le_iff_toNat_le] at h
    rw [if_neg (by omega)]

theorem isUpper_iff {c : Char} : c.isUpper = true ↔ 65 ≤ c.toNat ∧ c.toNat ≤ 90 := by
  have hval : c.val.toNat = c.toNat := rfl
  have hfirst : 'A'.val.toNat = 65 := rfl
  have hlast : 'Z'.val.toNat = 90 := rfl
  have hdef : c.isUpper = decide ('A'.val ≤ c.val ∧ c.val ≤ 'Z'.val) := rfl
  simp only [hdef, UInt32.le_iff_toNat_le, decide_eq_true_eq]
  omega

theorem isLower_iff {c : Char} : c.isLower = true ↔ 97 ≤ c.toNat ∧ c.toNat ≤ 122 := by
  have hval : c.val.toNat = c.toNat := rfl
  have hfirst : 'a'.val.toNat = 97 := rfl
  have hlast : 'z'.val.toNat = 122 := rfl
  have hdef : c.isLower = (decide ('a'.val ≤ c.val) && decide (c.val ≤ 'z'.val)) := rfl
  simp only [hdef, UInt32.le_iff_toNat_le, Bool.and_eq_true, decide_eq_true_eq]
  omega

theorem isAlpha_iff {c : Char} : c.isAlpha = true ↔
    (65 ≤ c.toNat ∧ c.toNat ≤ 90) ∨ 97 ≤ c.toNat ∧ c.toNat ≤ 122 := by
  have hdef : c.isAlpha = (c.isUpper || c.isLower) := rfl
  rw [hdef, Bool.or_eq_true, isUpper_iff, isLower_iff]

/-- A character that is a capital in upper case may stand in a name. -/
theorem isNameChar_of_upper {c : Char} (h : c.toUpper.isUpper = true) : isNameChar c = true := by
  rw [isUpper_iff, toNat_toUpper] at h
  have hascii : c.toNat < 128 := by
    split at h <;> omega
  have hletter : c.isAlpha = true := by
    rw [isAlpha_iff]
    split at h <;> omega
  simp [isNameChar, isLetter, hascii, hletter]

/-! ## Character classes -/

/-- No range of one table meets a range of the other. -/
def Ranges.apart (a b : Ranges) : Bool :=
  a.all fun x => b.all fun y => x.2 < y.1 || y.2 < x.1

theorem Ranges.has_of_apart {a b : Ranges} {c : Char} (h : a.apart b = true)
    (ha : a.has c = true) : b.has c = false := by
  simp only [Ranges.apart, List.all_eq_true, Bool.or_eq_true, decide_eq_true_eq] at h
  simp only [Ranges.has, List.any_eq_true, Bool.and_eq_true, decide_eq_true_eq] at ha
  simp only [Ranges.has, List.any_eq_false, Bool.and_eq_true, decide_eq_true_eq, not_and]
  obtain ⟨x, hx, hxc⟩ := ha
  intro y hy hle
  have hxy := h x hx y hy
  omega

theorem letters_apart_blanks : Ranges.apart alphabeticRanges blankRanges = true := by
  decide +kernel

theorem isBlank_of_isAlpha {c : Char} (h : c.isAlpha = true) : isBlank c = false := by
  rw [isAlpha_iff] at h
  simp only [isBlank, Ranges.has, blankRanges, List.any_cons, List.any_nil, Bool.or_false,
    Bool.or_eq_false_iff, Bool.and_eq_false_iff, decide_eq_false_iff_not]
  omega

/-- The first character of a name is not white space. -/
theorem isBlank_of_isNameStart {c : Char} (h : isNameStart c = true) : isBlank c = false := by
  simp only [isNameStart, Bool.or_eq_true, beq_iff_eq] at h
  rcases h with h | rfl
  · unfold isLetter at h
    split at h
    · exact isBlank_of_isAlpha h
    · exact Ranges.has_of_apart letters_apart_blanks h
  · decide

theorem dropBlanks_cons {c : Char} {cs : List Char} (h : isBlank c = false) :
    dropBlanks (c :: cs) = c :: cs := by
  simp [dropBlanks, h]

end Text

namespace Rule

variable {ν : Type} {body : ν → Rule ν} {levels : Nat} {cs rest : List Char}

/-! ## Literals and keywords -/

/-- No name goes on at the front of the text. -/
def EndsName (cs : List Char) : Prop := ∀ c ∈ cs.head?, Text.isNameChar c = false

theorem endsName_cons {c : Char} (h : Text.isNameChar c = false) (rest : List Char) :
    EndsName (c :: rest) := by
  rintro _ ⟨⟩
  exact h

theorem endsName_open (rest : List Char) : EndsName ('(' :: rest) := endsName_cons (by decide) rest

theorem endsName_blank (rest : List Char) : EndsName (' ' :: rest) := endsName_cons (by decide) rest

theorem startsWith_append (ignoreCase : Bool) (text rest : List Char) :
    State.startsWith ignoreCase (text ++ rest) text = true := by
  induction text with
  | nil => cases rest <;> rfl
  | cons c text ih => simp [State.startsWith, State.sameChar, ih]

/-- The blanks in front of a text and the token behind them. -/
theorem blanks_append {token : List Char} (h : Text.dropBlanks cs = token ++ rest) :
    cs = (cs.takeWhile Text.isBlank ++ token) ++ rest := by
  rw [List.append_assoc, ← h]
  exact (List.takeWhile_append_dropWhile).symm

/-- What a match of a token behind blanks leaves. -/
theorem leaves_token {s : State} {token : List Char} {tokens : List Token} {lexemes : List Lexeme}
    (hs : s.rest = cs) (h : Text.dropBlanks cs = token ++ rest)
    (htokens : tokens.map Token.lexeme = lexemes) :
    (Outcome.matched (s.skipBlanks.past token.length tokens)).Leaves cs rest lexemes s := by
  refine ⟨cs.takeWhile Text.isBlank ++ token, tokens, blanks_append h, ?_, htokens⟩
  rw [State.skipBlanks_eq_past, State.past_past, hs, List.length_append, List.nil_append]

theorem AcceptsAt.literal {text : String} {logged : Bool}
    (h : Text.dropBlanks cs = text.toList ++ rest) :
    AcceptsAt body levels (.literal text logged) cs rest
      (if logged then [(.symbol, text)] else []) := by
  intro s hs
  have hat : s.skipBlanks.lookingAt text false = true := by
    rw [State.lookingAt, State.skipBlanks_rest, hs.rest, h]
    exact startsWith_append false text.toList rest
  have hlength : text.length = text.toList.length := String.length_toList.symm
  cases logged with
  | true =>
    simp only [run, State.literal, hat, if_true, State.take_eq_past, hlength]
    exact leaves_token hs.rest h rfl
  | false =>
    simp only [run, State.literal, hat, if_true, Bool.false_eq_true, if_false,
      State.advance_eq_past, hlength]
    exact leaves_token hs.rest h rfl

theorem Accepts.literal {text : String} {logged : Bool}
    (h : Text.dropBlanks cs = text.toList ++ rest) :
    Accepts body (.literal text logged) cs rest (if logged then [(.symbol, text)] else []) :=
  ⟨0, fun _ _ => AcceptsAt.literal h⟩

/-- Another text stands behind white space. -/
theorem Rejects.literal {text : String} {logged : Bool}
    (h : State.startsWith false (Text.dropBlanks cs) text.toList = false) :
    Rejects body (.literal text logged) cs := by
  refine ⟨0, fun levels _ s hs => ?_⟩
  have hat : s.skipBlanks.lookingAt text false = false := by
    rw [State.lookingAt, State.skipBlanks_rest, hs.rest, h]
  simp [run, State.literal, hat]

theorem Accepts.symbol {text : String} (h : Text.dropBlanks cs = text.toList ++ rest) :
    Accepts body (.symbol text) cs rest [(.symbol, text)] :=
  Accepts.literal h

theorem Accepts.hidden {text : String} (h : Text.dropBlanks cs = text.toList ++ rest) :
    Accepts body (.hidden text) cs rest [] :=
  Accepts.literal h

/-- A keyword in some letter case. -/
theorem Accepts.keywordAs {word : String} {found : List Char}
    (h : Text.dropBlanks cs = found ++ rest) (hlength : found.length = word.length)
    (hstarts : State.startsWith true (found ++ rest) word.toList = true) (hrest : EndsName rest) :
    Accepts body (.keyword word) cs rest [(.keyword, word)] := by
  refine ⟨0, fun levels _ s hs => ?_⟩
  have hat : s.skipBlanks.lookingAt word true = true := by
    rw [State.lookingAt, State.skipBlanks_rest, hs.rest, h, hstarts]
  have hbehind : s.skipBlanks.rest[found.length]? = rest.head? := by
    rw [State.skipBlanks_rest, hs.rest, h, List.getElem?_append_right (Nat.le_refl _), Nat.sub_self,
      List.head?_eq_getElem?]
  have hboundary : s.skipBlanks.isBoundary word.length = true := by
    simp only [State.isBoundary, State.peek?, ← hlength, hbehind]
    cases hhead : rest.head? with
    | none => rfl
    | some c => simp [hrest c hhead]
  simp only [run, State.keyword, hat, hboundary, Bool.and_self, if_true, State.take_eq_past]
  rw [← hlength]
  exact leaves_token hs.rest h rfl

theorem Accepts.keyword {word : String} (h : Text.dropBlanks cs = word.toList ++ rest)
    (hrest : EndsName rest) : Accepts body (.keyword word) cs rest [(.keyword, word)] :=
  Accepts.keywordAs h String.length_toList (startsWith_append true word.toList rest) hrest

theorem Rejects.keyword {word : String}
    (h : State.startsWith true (Text.dropBlanks cs) word.toList = false) :
    Rejects body (.keyword word) cs := by
  refine ⟨0, fun levels _ s hs => ?_⟩
  have hat : s.skipBlanks.lookingAt word true = false := by
    rw [State.lookingAt, State.skipBlanks_rest, hs.rest, h]
  simp [run, State.keyword, hat]

/-- One of several keywords, tried before those that stand at the front of the text as well. -/
theorem Accepts.keywords {word : String} {words : List String}
    (hcs : Text.dropBlanks cs = word.toList ++ rest) (hrest : EndsName rest) (hword : word ∈ words)
    (hothers : (words.takeWhile (· != word)).all
      (fun other => !State.startsWith true (word.toList ++ rest) other.toList) = true) :
    Accepts body (.keywords words) cs rest [(.keyword, word)] := by
  induction words with
  | nil => cases hword
  | cons other words ih =>
    by_cases hother : other = word
    · exact hother ▸ Accepts.choiceHead (Accepts.keyword (hother ▸ hcs) hrest)
    · rw [List.takeWhile_cons_of_pos (by simpa using hother), List.all_cons, Bool.and_eq_true,
        Bool.not_eq_true'] at hothers
      exact Accepts.choiceTail (Rejects.keyword (by rw [hcs, hothers.1]))
        (ih ((List.mem_cons.mp hword).resolve_left (Ne.symm hother)) hothers.2)

/-- None of the words stands at the front of the text. -/
theorem Rejects.keywords {words : List String}
    (h : words.all (fun word => !State.startsWith true (Text.dropBlanks cs) word.toList) = true) :
    Rejects body (.keywords words) cs := by
  induction words with
  | nil => exact Rejects.choiceNil
  | cons word words ih =>
    simp only [List.all_cons, Bool.and_eq_true, Bool.not_eq_true'] at h
    exact Rejects.choiceCons (Rejects.keyword h.1) (ih h.2)

/-! ## Names -/

/-- The whole text is a name that is not reserved. -/
structure IsWord (name : String) : Prop where
  nonempty : name.toList ≠ []
  whole : State.scanName name.toList = name.toList
  free : State.isReserved name = false

namespace IsWord

variable {name : String}

theorem starts (h : IsWord name) : ∃ first more, name.toList = first :: more ∧
    Text.isNameStart first = true ∧ ∀ c ∈ name.toList, Text.isNameChar c = true := by
  obtain ⟨first, more, hname⟩ := List.exists_cons_of_ne_nil h.nonempty
  have hwhole := h.whole
  rw [hname, State.scanName] at hwhole
  split at hwhole
  · rename_i hstart
    refine ⟨first, more, hname, hstart, ?_⟩
    rw [hname, ← hwhole]
    exact List.all_eq_true.mp List.all_takeWhile
  · cases hwhole

theorem dropBlanks (h : IsWord name) (rest : List Char) :
    Text.dropBlanks (name.toList ++ rest) = name.toList ++ rest := by
  obtain ⟨first, more, hname, hstart, -⟩ := h.starts
  rw [hname, List.cons_append, Text.dropBlanks_cons (Text.isBlank_of_isNameStart hstart)]

theorem front (h : IsWord name) (rest : List Char) :
    ∃ c, front (name.toList ++ rest) = some c ∧ Text.isNameStart c = true := by
  obtain ⟨first, more, hname, hstart, -⟩ := h.starts
  refine ⟨first, ?_, hstart⟩
  rw [Rule.front, h.dropBlanks, hname]
  rfl

theorem scanName (h : IsWord name) (hrest : EndsName rest) :
    State.scanName (name.toList ++ rest) = name.toList := by
  obtain ⟨first, more, hname, hstart, hall⟩ := h.starts
  have htake : (name.toList ++ rest).takeWhile Text.isNameChar = name.toList := by
    rw [List.takeWhile_append_of_pos hall]
    cases rest with
    | nil => simp
    | cons c rest => simp [hrest c rfl]
  rw [hname] at htake ⊢
  simpa only [State.scanName, List.cons_append, hstart, if_true] using htake

end IsWord

theorem Accepts.word {name : String} (h : Text.dropBlanks cs = name.toList ++ rest)
    (hname : IsWord name) (hrest : EndsName rest) :
    Accepts body .word cs rest [(.word, name)] := by
  refine ⟨0, fun levels _ s hs => ?_⟩
  have hscan : State.scanName s.skipBlanks.rest = name.toList := by
    rw [State.skipBlanks_rest, hs.rest, h, hname.scanName hrest]
  have hnonempty : name.toList.isEmpty = false := by simpa using hname.nonempty
  simp only [run, State.name, hscan, hnonempty, String.ofList_toList, hname.free, Bool.or_self,
    Bool.false_eq_true, if_false, State.take_eq_past]
  exact leaves_token hs.rest h rfl

/-- A reserved word is no name. -/
theorem Rejects.word {found : List Char} (h : State.scanName (Text.dropBlanks cs) = found)
    (hreserved : State.isReserved (String.ofList found) = true) : Rejects body .word cs := by
  refine ⟨0, fun levels _ s hs => ?_⟩
  simp [run, State.name, State.skipBlanks_rest, hs.rest, h, hreserved]

/-! ## Keywords and names -/

/-- Only capitals. -/
def Capital (word : String) : Prop := ∀ c ∈ word.toList, c.isUpper = true

theorem sameChar_upper {c e : Char} (he : e.isUpper = true) :
    State.sameChar true c e = (c.toUpper == e) := by
  have hupper := Text.isUpper_iff.mp he
  rw [Bool.eq_iff_iff]
  simp only [State.sameChar, Bool.or_eq_true, Bool.true_and, beq_iff_eq, ← Char.toNat_inj,
    Text.toNat_toLower, Text.toNat_toUpper]
  rw [if_pos hupper]
  split <;> split <;> omega

theorem startsWith_capital {cs word : List Char} (hword : ∀ c ∈ word, c.isUpper = true) :
    State.startsWith true cs word = true ↔ (cs.take word.length).map Char.toUpper = word := by
  induction word generalizing cs with
  | nil => simp [State.startsWith]
  | cons e word ih =>
    simp only [List.mem_cons, forall_eq_or_imp] at hword
    cases cs with
    | nil => simp [State.startsWith]
    | cons c cs => simp [State.startsWith, sameChar_upper hword.1, ih hword.2]

/-- A keyword that is found at the front of a name is that name in upper case. -/
theorem keyword_whole {name word : List Char} (hname : ∀ c ∈ name, Text.isNameChar c = true)
    (hrest : EndsName rest) (hword : ∀ c ∈ word, c.isUpper = true)
    (hstarts : State.startsWith true (name ++ rest) word = true)
    (hboundary : ∀ c ∈ (name ++ rest)[word.length]?, Text.isNameChar c = false) :
    name.map Char.toUpper = word := by
  rw [startsWith_capital hword] at hstarts
  have hlength := congrArg List.length hstarts
  simp only [List.length_map, List.length_take, List.length_append] at hlength
  rcases Nat.lt_trichotomy word.length name.length with hlt | heq | hgt
  · -- The keyword would end inside the name.
    have hat : (name ++ rest)[word.length]? = some name[word.length] := by
      rw [List.getElem?_append_left hlt, List.getElem?_eq_getElem hlt]
    have hchar := hname _ (List.getElem_mem hlt)
    rw [hboundary _ hat] at hchar
    cases hchar
  · rw [← hstarts, heq, List.take_left' rfl]
  · -- The keyword would go on behind the name.
    cases rest with
    | nil => simp at hlength; omega
    | cons c rest =>
      have hat : c.toUpper ∈ word := by
        rw [← hstarts, List.take_append, List.map_append]
        obtain ⟨more, hmore⟩ : ∃ n, word.length - name.length = n + 1 :=
          ⟨word.length - name.length - 1, by omega⟩
        simp [hmore]
      have hchar := Text.isNameChar_of_upper (hword _ hat)
      rw [hrest c rfl] at hchar
      cases hchar

/-- A keyword in front of a name fails, or matches the name because it spells the keyword. -/
theorem keyword_on_name {name word : String} (h : Text.dropBlanks cs = name.toList ++ rest)
    (hname : IsWord name) (hrest : EndsName rest) (hword : Capital word) :
    Rejects body (.keyword word) cs ∨
      name.toUpper = word ∧ Accepts body (.keyword word) cs rest [(.keyword, word)] := by
  obtain ⟨first, more, hfirst, hstart, hall⟩ := hname.starts
  by_cases hupper : name.toList.map Char.toUpper = word.toList
  · have hlength : name.toList.length = word.toList.length := by
      rw [← hupper, List.length_map]
    refine Or.inr ⟨?_, Accepts.keywordAs h ?_ ?_ hrest⟩
    · rw [String.toUpper, String.map_eq_internal, hupper, String.ofList_toList]
    · rw [hlength, String.length_toList]
    · rw [startsWith_capital hword, ← hlength, List.take_left' rfl, hupper]
  · refine Or.inl ⟨0, fun levels _ s hs => ?_⟩
    have hrest' : s.skipBlanks.rest = name.toList ++ rest := by
      rw [State.skipBlanks_rest, hs.rest, h]
    have hnone : ¬ (s.skipBlanks.lookingAt word true = true ∧
        s.skipBlanks.isBoundary word.length = true) := by
      rintro ⟨hstarts, hboundary⟩
      rw [State.lookingAt, hrest'] at hstarts
      refine hupper (keyword_whole hall hrest hword hstarts fun c hc => ?_)
      rw [State.isBoundary, State.peek?, hrest', ← String.length_toList, hc] at hboundary
      simpa using hboundary
    simp only [run, State.keyword, Bool.and_eq_true, hnone, if_false]

section Names

variable {name word : String} (h : Text.dropBlanks cs = name.toList ++ rest) (hname : IsWord name)
  (hrest : EndsName rest)
include h hname hrest

/-- A keyword that is reserved fails in front of a name. -/
theorem Rejects.reserved (hword : Capital word) (hmem : word ∈ State.reservedWords) :
    Rejects body (.keyword word) cs := by
  rcases keyword_on_name h hname hrest hword with hreject | ⟨hupper, -⟩
  · exact hreject
  · have hfree := hname.free
    rw [State.isReserved, hupper] at hfree
    simp only [List.contains_eq_mem, decide_eq_false_iff_not] at hfree
    exact absurd hmem hfree

/-- Keywords in front of a name fail together with what has to follow them, when that cannot follow
the name. -/
theorem Rejects.keywordsOnName {words : List String} {next : Rule ν} {rules : List (Rule ν)}
    (hwords : ∀ word ∈ words, Capital word) (hnext : Rejects body next rest) :
    Rejects body (.sequence (.keywords words :: next :: rules)) cs := by
  have hone : Rejects body (.keywords words) cs ∨
      ∃ word, Accepts body (.keywords words) cs rest [(.keyword, word)] := by
    induction words with
    | nil => exact Or.inl Rejects.choiceNil
    | cons word words ih =>
      simp only [List.mem_cons, forall_eq_or_imp] at hwords
      obtain hreject | ⟨-, haccept⟩ : Rejects body (.keyword word) cs ∨ _ :=
        keyword_on_name h hname hrest hwords.1
      · rcases ih hwords.2 with h | ⟨other, h⟩
        · exact Or.inl (Rejects.choiceCons hreject h)
        · exact Or.inr ⟨other, Accepts.choiceTail hreject h⟩
      · exact Or.inr ⟨word, Accepts.choiceHead haccept⟩
  rcases hone with h | ⟨word, h⟩
  · exact Rejects.seqHead h
  · exact Rejects.seqTail h (Rejects.seqHead hnext)

/-- A keyword in front of a name fails together with what has to follow it. -/
theorem Rejects.keywordOnName {next : Rule ν} {rules : List (Rule ν)} (hword : Capital word)
    (hnext : Rejects body next rest) :
    Rejects body (.sequence (.keyword word :: next :: rules)) cs := by
  obtain h | ⟨-, h⟩ : Rejects body (.keyword word) cs ∨ _ := keyword_on_name h hname hrest hword
  · exact Rejects.seqHead h
  · exact Rejects.seqTail h (Rejects.seqHead hnext)

end Names

end Rule

end LinkQuery
