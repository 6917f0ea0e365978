import LinkQuery.Proofs.ArithmeticTexts
import LinkQuery.Proofs.FilterPositions
import LinkQuery.Proofs.OperatorChains
/-!
# Arithmetic is read as written

The tree of a metric, written with parentheses wherever an operand binds less closely than its place
asks for, is read as that tree. Operators wait on a stack while their right operand is read, so the
operands of a rank are followed from the stacks in front of them to the stacks behind them.

Main statements:
- `Element.Lists`: what a log is as a list, up to where its tokens stand.
- `Metric.Written`, `Metric.WrittenList`: the texts of a tree and of several trees.
- `Metric.Written.operand`: a text of a tree is matched, and read as the tree.
- `Compiler.metrics_written`: what the texts of trees compile to.
-/
namespace LinkQuery

open Rule Language ElementReader Element OperatorStacks

/-! ## Lists of lexemes -/

namespace Element

/-- A log that says the lexemes is a list of elements with a property, wherever its tokens stand. -/
def Lists (l : List Lexeme) (P : ListSet Element) : Prop :=
  ∀ log : List Token, log.map Token.lexeme = l → ∃ es, Adds .list [] log (.ok es) ∧ P es

namespace Lists

variable {a b l : List Lexeme} {P Q R : ListSet Element}

theorem mono (h : Lists l P) (hPQ : ∀ es, P es → Q es) : Lists l Q := fun log hlog =>
  (h log hlog).imp fun _ hes => ⟨hes.1, hPQ _ hes.2⟩

theorem append (ha : Lists a P) (hb : Lists b Q) (h : ∀ x y, P x → Q y → R (x ++ y)) :
    Lists (a ++ b) R := by
  intro log hlog
  obtain ⟨front, back, rfl, hfront, hback⟩ := List.map_eq_append_iff.mp hlog
  obtain ⟨x, hx, hP⟩ := ha front hfront
  obtain ⟨y, hy, hQ⟩ := hb back hback
  exact ⟨x ++ y, Adds.append hx hy, h x y hP hQ⟩

/-- A token that stands for itself in front of other lexemes. -/
theorem cons {x : Lexeme} (hx : standsAlone ⟨x.1, x.2, 0⟩ = true) (h : Lists l P)
    (hcons : ∀ p es, P es → Q (.token ⟨x.1, x.2, p⟩ :: es)) : Lists (x :: l) Q := by
  intro log hlog
  obtain ⟨⟨kind, value, p⟩, rest, rfl, rfl, hrest⟩ := List.map_eq_cons_iff.mp hlog
  obtain ⟨es, hes, hP⟩ := h rest hrest
  exact ⟨_, Adds.cons (fun _ _ => collect_list_token hx) hes, hcons p es hP⟩

theorem nil (h : P []) : Lists [] P := by
  intro log hlog
  obtain rfl := List.map_eq_nil_iff.mp hlog
  exact ⟨[], Adds.nil, h⟩

theorem single {x : Lexeme} (hx : standsAlone ⟨x.1, x.2, 0⟩ = true) :
    Lists [x] (fun es => ∃ p, es = [.token ⟨x.1, x.2, p⟩]) :=
  cons hx (nil (P := (· = [])) rfl) (by rintro p _ rfl; exact ⟨p, rfl⟩)

end Lists

end Element

namespace Metric

variable {schema : Schema} {scope : Filter.Scope} {table : String} {k : Nat}

/-! ## Calls -/

/-- The call is one without filters that the table allows. -/
structure IsCallable (schema : Schema) (table : String) (c : MetricCall) : Prop where
  unrestricted : c.filter = none
  names : ∀ name ∈ c.path, IsWord name
  target : c.path = [] ∧ c.function = .count ∨
    ∃ roles, schema.Along table c.path roles ∧
      (c.function.needsOrder = true → ∀ role ∈ roles.getLast?, isOrdered role.scalarType? = true)
  parameter : c.parameter.isSome = true ↔ c.function = .roundUp
  fits : ∀ value ∈ c.parameter, value.Fits

theorem carriedFilters_free {links : List String} {segments : List ResolvedSegment}
    (h : ∀ s ∈ segments, s.segment.filters = []) :
    carriedFilters scope links segments = .ok [] := by
  induction segments generalizing links with
  | nil => rfl
  | cons s rest ih =>
    rw [List.forall_mem_cons] at h
    unfold carriedFilters
    simp only [h.1, List.isEmpty_nil, if_true]
    rw [ih h.2]
    rfl

/-- The path of names that stand in a log. -/
def wordPath (first : Token) (rest : List Token) : Path :=
  ⟨.named first.value first.position, rest.map fun t => .named t.value t.position⟩

theorem wordPath_segments (first : Token) (rest : List Token) :
    (wordPath first rest).segments = (first :: rest).map fun t => .named t.value t.position := rfl

theorem requirePlain_wordPath (first : Token) (rest : List Token) (use : Path.Use) :
    (wordPath first rest).requirePlain use = .ok () := by
  unfold Path.requirePlain
  generalize (wordPath first rest).dotted = dotted
  rw [wordPath_segments]
  induction first :: rest with
  | nil => rfl
  | cons t rest ih => exact ih

theorem wordPath_unplaced (first : Token) (rest : List Token) :
    (wordPath first rest).unplaced = Filter.namePath first.value (rest.map (·.value)) := by
  simp [wordPath, Path.unplaced, Filter.namePath, Segment.unplaced, Segment.named,
    Function.comp_def]

theorem segmentsFrom_words {words : List Token} (h : ∀ t ∈ words, t.kind = .word)
    (before : List Segment) (p : Nat) (rest : List Token) :
    Path.segmentsFrom [] before (words ++ ⟨.marker .pathEnd, "", p⟩ :: rest) =
      .ok (before.reverse ++ words.map (fun t => .named t.value t.position), rest) := by
  induction words generalizing before with
  | nil =>
    rw [List.nil_append, Path.segmentsFrom.eq_def]
    simp
  | cons t words ih =>
    rw [List.forall_mem_cons] at h
    rw [List.cons_append, Path.segmentsFrom.eq_def]
    simp only [h.1]
    rw [ih h.2]
    simp

theorem callPath_words {function : MetricFunction} {keyword : String} {first : Token}
    {rest : List Token} {roles : List FieldRole}
    (halong : scope.schema.Along table (first.value :: rest.map (·.value)) roles)
    (horder : function.needsOrder = true →
      ∀ role ∈ roles.getLast?, isOrdered role.scalarType? = true) :
    callPath scope table function keyword (wordPath first rest) =
      .ok (first.value :: rest.map (·.value), none) := by
  obtain ⟨placed, hplaced, hnames, hroles⟩ := Filter.resolve_names halong
  have hagree : Agree ResolvedPath.unplaced (scope.schema.resolve table (wordPath first rest)) _ :=
    Filter.resolve_unplaced (wordPath first rest)
  rw [wordPath_unplaced, hplaced] at hagree
  obtain ⟨_, _, -, hfalse⟩ | ⟨resolved, hresolved, hsame⟩ := hagree.cases
  · cases hfalse
  obtain rfl : placed = resolved.unplaced := Except.ok.inj hsame
  have hsegments : resolved.segments.map (·.segment) = (wordPath first rest).segments := by
    exact (Schema.resolve_yields.of_ok hresolved).2
  have hleaf : (function.needsOrder && !isOrdered resolved.leaf.role.scalarType?) = false := by
    have hlast : resolved.leaf.role ∈ roles.getLast? := by
      rw [← hroles]
      simp [ResolvedPath.segments, ResolvedPath.unplaced, ResolvedSegment.unplaced]
    cases hneeds : function.needsOrder with
    | false => rfl
    | true => simp [horder hneeds _ hlast]
  have hfilters : carriedFilters scope [] resolved.segments = .ok [] := by
    refine carriedFilters_free fun s hs => ?_
    have hmem : s.segment ∈ (wordPath first rest).segments := hsegments ▸ List.mem_map_of_mem hs
    rw [wordPath_segments] at hmem
    obtain ⟨t, -, hnamed⟩ := List.mem_map.mp hmem
    rw [← hnamed]
    rfl
  unfold callPath
  rw [requirePlain_wordPath, hresolved]
  show (if (function.needsOrder && !isOrdered resolved.leaf.role.scalarType?) = true then _
    else _) = _
  rw [hleaf]
  show (carriedFilters scope [] resolved.segments >>= _) = _
  rw [hfilters, ← hnames, Filter.unplaced_names]
  rfl

/-- Names along a path are one element. -/
theorem lists_path {first : String} {names : List String} :
    Lists (pathLexemes ((first :: names).map fun name => (.word, name))) (fun es => ∃ t ts,
      t.value = first ∧ ts.map (·.value) = names ∧ es = [.path (wordPath t ts)]) := by
  intro log hlog
  obtain ⟨⟨_, _, p⟩, body, rfl, ⟨⟩, hbody⟩ := List.map_eq_cons_iff.mp hlog
  obtain ⟨words, ends, rfl, hwords, hends⟩ := List.map_eq_append_iff.mp hbody
  obtain ⟨⟨_, _, q⟩, _, rfl, ⟨⟩, hnil⟩ := List.map_eq_cons_iff.mp hends
  obtain rfl := List.map_eq_nil_iff.mp hnil
  obtain ⟨head, tail, rfl, hhead, htail⟩ := List.map_eq_cons_iff.mp hwords
  have hkinds : ∀ t ∈ head :: tail, t.kind = .word := by
    intro word hword
    have hmem := List.mem_map_of_mem (f := Token.lexeme) hword
    rw [hwords] at hmem
    obtain ⟨name, -, hname⟩ := List.mem_map.mp hmem
    exact (congrArg Prod.fst hname).symm
  refine ⟨_, fun done rest => ?_, head, tail, congrArg Prod.snd hhead, ?_, rfl⟩
  · have hread : Path.read (head :: tail ++ ⟨.marker .pathEnd, "", q⟩ :: rest) =
        .ok (wordPath head tail, rest) := by
      unfold Path.read
      rw [segmentsFrom_words hkinds]
      rfl
    show _ = collect .list [] (.path (wordPath head tail) :: done) rest
    rw [List.cons_append, List.append_assoc]
    exact collect_path p hread
  · have hvalues := congrArg (List.map Prod.snd) htail
    simpa [Function.comp_def, Token.lexeme] using hvalues

variable {c : MetricCall}

/-- The target of a call is one element, from which its names are read. -/
theorem lists_target (h : IsCallable scope.schema table c) (keyword : String) :
    Lists (targetLexemes c.path) (fun es => ∀ rest,
      callTarget scope table c.function keyword (es ++ rest) = .ok ((c.path, none), rest)) := by
  rcases h.target with ⟨hpath, hcount⟩ | ⟨roles, halong, horder⟩
  · rw [hpath, hcount]
    refine (Lists.single rfl).mono ?_
    rintro _ ⟨p, rfl⟩ rest
    rfl
  · obtain ⟨first, names, hnames⟩ := Filter.exists_first halong
    rw [hnames] at halong ⊢
    refine lists_path.mono ?_
    rintro _ ⟨t, ts, rfl, rfl, rfl⟩ rest
    show ((callPath scope table c.function keyword (wordPath t ts)).map _ : Except QueryError _) = _
    rw [callPath_words halong horder]
    rfl

theorem ofKeyword_keyword (function : MetricFunction) :
    MetricFunction.ofKeyword? function.keyword = some function := by
  cases function <;> rfl

theorem checkParameter_callable (h : IsCallable schema table c) (keyword : String) :
    checkParameter c.function keyword c.parameter = .ok () := by
  have hparameter := h.parameter
  unfold checkParameter
  split
  · rename_i hround
    have hsome := hparameter.mpr hround
    rw [Option.isSome_iff_ne_none] at hsome
    simp [hsome]
  · rename_i hround
    rw [if_neg (hparameter.not.mpr hround)]

/-- What a call reads behind its target. -/
def callEnd (function : MetricFunction) (path : List String) : ElementReader MetricCall := do
  let parameter ←
    if ← symbolIf "," then
      some <$> ElementReader.lift (decimalOf (← ElementReader.nextToken).value)
    else pure none
  ElementReader.symbol ")"
  ElementReader.lift (checkParameter function function.keyword parameter)
  return ⟨function, path, none, parameter⟩

theorem lists_callEnd {l : List Lexeme} (h : IsCallable schema table c)
    (hl : SaysParameter c.parameter l) :
    Lists (l ++ [(.symbol, ")")]) (fun es =>
      ∀ rest, callEnd c.function c.path (es ++ rest) = .ok (c, rest)) := by
  have hcheck := checkParameter_callable h c.function.keyword
  obtain ⟨function, path, filter, parameter⟩ := c
  obtain rfl : filter = none := h.unrestricted
  dsimp only at hcheck hl ⊢
  cases hl with
  | none =>
    refine (Lists.single rfl).mono ?_
    rintro _ ⟨p, rfl⟩ rest
    show ((checkParameter function function.keyword none).map _ >>= _ : Except QueryError _) = _
    rw [hcheck]
    rfl
  | @some value digits hvalue =>
    have hnumber : Lists [(.number, digits), (.symbol, ")")] (fun es => ∃ p q,
        es = [.token ⟨.number, digits, p⟩, .token ⟨.symbol, ")", q⟩]) :=
      Lists.cons rfl (Lists.single rfl) (by rintro p _ ⟨q, rfl⟩; exact ⟨p, q, rfl⟩)
    refine Lists.cons rfl hnumber ?_
    rintro p _ ⟨q, r, rfl⟩ rest
    show (((decimalOf digits).map _ >>= _) >>= _ : Except QueryError _) = _
    rw [hvalue]
    show ((checkParameter function function.keyword (some value)).map _ >>= _ :
      Except QueryError _) = _
    rw [hcheck]
    rfl

/-- The call behind its keyword. -/
theorem lists_call {l : List Lexeme} (h : IsCallable scope.schema table c) (hl : SaysCall c l) :
    Lists l (fun es => ∃ p behind, es = .token ⟨.keyword, c.function.keyword, p⟩ :: behind ∧
      ∀ rest, call scope table c.function.keyword (behind ++ rest) = .ok (c, rest)) := by
  obtain ⟨parameter, hparameter, rfl⟩ := hl
  have hinside := (lists_target h c.function.keyword).append (lists_callEnd h hparameter)
    (R := fun es => ∀ p rest, call scope table c.function.keyword
      (.token ⟨.symbol, "(", p⟩ :: es ++ rest) = .ok (c, rest))
    fun target behind htarget hend p rest => by
    unfold call
    rw [ofKeyword_keyword]
    show (callTarget scope table c.function c.function.keyword (target ++ behind ++ rest) >>=
      fun x => _) = _
    rw [List.append_assoc, htarget]
    exact hend rest
  exact Lists.cons rfl (Lists.cons (Q := fun es => ∀ rest, call scope table c.function.keyword
    (es ++ rest) = .ok (c, rest)) rfl hinside fun p es hes => hes p)
    fun p es hes => ⟨p, es, rfl, hes⟩

/-! ## Operands -/

/-- Reading the elements leaves the operand on the stacks, wherever its rank may begin. -/
def IsOperand (scope : Filter.Scope) (table : String) (k : Nat) (q : MetricExpr)
    (es : List Element) : Prop :=
  ∀ s : Stacks, Clear ArithmeticOp.rank k s → ∃ t, Lands apply ArithmeticOp.rank k s q t ∧
    ∀ rest, loop (step scope table) s (es ++ rest) = loop (step scope table) t rest

namespace IsOperand

variable {q left right : MetricExpr} {es a b : List Element}

/-- An operand that is read in one round. -/
theorem of_round (hne : es ≠ []) (h : ∀ (s : Stacks) rest,
      step scope table s (es ++ rest) = .ok (.more (s.push q), rest)) :
    IsOperand scope table k q es :=
  fun s hs => ⟨s.push q, Lands.push hs, fun rest => loop_round (h s rest) hne⟩

theorem weaken {j : Nat} (h : IsOperand scope table j q es) (hk : k ≤ j) :
    IsOperand scope table k q es := by
  intro s hs
  obtain ⟨t, ht, hread⟩ := h s fun op hop => Nat.lt_of_lt_of_le (hs op hop) hk
  exact ⟨t, ht.weaken hk hs, hread⟩

theorem group (h : IsOperand scope table 1 q es) (p p' : Nat) :
    IsOperand scope table k q
      (.token ⟨.symbol, "(", p⟩ :: (es ++ [.token ⟨.symbol, ")", p'⟩])) := by
  intro s hs
  obtain ⟨t, ht, hread⟩ := h s.opened (Clear.of_nil rfl)
  refine ⟨s.push q, Lands.push hs, fun rest => ?_⟩
  have hopen : loop (step scope table) s (.token ⟨.symbol, "(", p⟩ ::
      (es ++ .token ⟨.symbol, ")", p'⟩ :: rest)) = loop (step scope table) s.opened _ :=
    loop_round (a := [_]) rfl (by simp)
  have hclose : loop (step scope table) t (.token ⟨.symbol, ")", p'⟩ :: rest) =
      loop (step scope table) (s.push q) rest :=
    loop_round (a := [_]) (step_close ht p' rest) (by simp)
  simpa using hopen.trans ((hread _).trans hclose)

theorem binary {op : ArithmeticOp} (ha : IsOperand scope table op.rank left a)
    (hb : IsOperand scope table (op.rank + 1) right b) (p : Nat) :
    IsOperand scope table op.rank (.binary op left right)
      (a ++ .token ⟨.symbol, op.symbol, p⟩ :: b) := by
  intro s hs
  obtain ⟨t, ht, hleft⟩ := ha s hs
  have happly : apply op (right :: left :: s.operands) =
      .ok (.binary op left right :: s.operands) := rfl
  obtain ⟨hconnected, hlands⟩ := ht.connected hs rfl happly
  obtain ⟨u, hu, hright⟩ := hb _ (Clear.waiting (Nat.lt_succ_self op.rank))
  refine ⟨u, hlands u hu, fun rest => ?_⟩
  have hround : loop (step scope table) t (.token ⟨.symbol, op.symbol, p⟩ :: (b ++ rest)) =
      loop (step scope table) _ (b ++ rest) :=
    loop_round (a := [_]) (step_operator p hconnected _) (by simp)
  simpa using (hleft _).trans (hround.trans (hright rest))

end IsOperand

/-- An operand from which the metric of an item is read, in front of the end or of a comma. -/
theorem IsOperand.expression {q : MetricExpr} {es rest : List Element}
    (h : IsOperand scope table 1 q es) (hrest : MetricEnd rest) :
    Metric.expression scope table (es ++ rest) = .ok (q, rest) := by
  obtain ⟨t, ht, hread⟩ := h .empty (Clear.of_nil rfl)
  exact expression_of_lands ((hread rest).trans (loop_metricEnd hrest)) ht

theorem IsOperand.ne_nil {q : MetricExpr} {es : List Element} (h : IsOperand scope table k q es) :
    es ≠ [] := by
  have hmetric : IsMetric scope table (· = q) k es := fun s hs =>
    Or.inr ((h s hs).elim fun t ht => ⟨q, t, ⟨rfl, ht.1⟩, ht.2⟩)
  exact hmetric.ne_nil

/-! ## Trees -/

/-- The tree is arithmetic over decimals and calls without filters. -/
inductive IsArithmetic (schema : Schema) (table : String) : MetricExpr → Prop
  | number {value : Decimal} (h : value.Fits) : IsArithmetic schema table (.number value)
  | call {c : MetricCall} (h : IsCallable schema table c) : IsArithmetic schema table (.call c)
  | binary {op : ArithmeticOp} {left right : MetricExpr} (hleft : IsArithmetic schema table left)
    (hright : IsArithmetic schema table right) : IsArithmetic schema table (.binary op left right)

/-- The text is the tree written as an operand of a rank: operators stand between spaces, and what
binds less closely than its place asks for stands in parentheses. -/
inductive Written (schema : Schema) (table : String) : Nat → MetricExpr → List Char → Prop
  | number {k : Nat} {value : Decimal} {digits : List Char} (h : IsDecimalText value digits) :
    Written schema table k (.number value) digits
  | call {k : Nat} {c : MetricCall} {text : List Char} (hcall : IsCallable schema table c)
    (h : IsCallText c text) : Written schema table k (.call c) text
  | group {k : Nat} {q : MetricExpr} {text : List Char} (h : Written schema table 1 q text) :
    Written schema table k q ('(' :: (text ++ [')']))
  | binary {k : Nat} {op : ArithmeticOp} {left right : MetricExpr} {a b before after : List Char}
    (hk : k ≤ op.rank) (hleft : Written schema table op.rank left a)
    (hright : Written schema table (op.rank + 1) right b) (hbefore : IsSpace before)
    (hafter : IsSpace after) :
    Written schema table k (.binary op left right)
      (a ++ (before ++ op.symbol.toList ++ (after ++ b)))

/-- The text is the trees with commas between them. -/
inductive WrittenList (schema : Schema) (table : String) : List MetricExpr → List Char → Prop
  | single {q : MetricExpr} {text : List Char} (h : Written schema table 1 q text) :
    WrittenList schema table [q] text
  | more {qs : List MetricExpr} {q : MetricExpr} {text other before after : List Char}
    (h : WrittenList schema table qs text) (hbefore : ∀ c ∈ before, Text.isBlank c = true)
    (hafter : ∀ c ∈ after, Text.isBlank c = true) (hq : Written schema table 1 q other) :
    WrittenList schema table (qs ++ [q]) (text ++ (before ++ [','] ++ (after ++ other)))

theorem Written.isArithmetic {q : MetricExpr} {text : List Char}
    (h : Written schema table k q text) :
    IsArithmetic schema table q := by
  induction h with
  | number h => exact .number (Decimal.ofText?_fits h.reads)
  | call hcall _ => exact .call hcall
  | group _ ih => exact ih
  | binary _ _ _ _ _ ihleft ihright => exact .binary ihleft ihright

theorem isDecimalText_text {value : Decimal} (h : value.Fits) :
    IsDecimalText value value.text.toList :=
  ⟨Decimal.text_isNumber value, by rw [String.ofList_toList, Decimal.ofText?_text h]⟩

theorem blank_blank : ∀ c ∈ [' '], Text.isBlank c = true := List.forall_mem_singleton.mpr rfl

theorem isSpace_blank : IsSpace [' '] := ⟨by simp, blank_blank⟩

theorem IsCallable.exists_text (h : IsCallable schema table c) : ∃ text, IsCallText c text := by
  obtain ⟨parameter, hparameter⟩ : ∃ parameter, IsParameterText c.parameter parameter := by
    cases hvalue : c.parameter with
    | none => exact ⟨[], .none⟩
    | some value =>
      exact ⟨_, .some blank_blank (isDecimalText_text (h.fits value hvalue))⟩
  exact ⟨_, parameter, hparameter, rfl⟩

/-- Every tree can be written at every place. -/
theorem IsArithmetic.exists_written {q : MetricExpr} (h : IsArithmetic schema table q) (k : Nat) :
    ∃ text, Written schema table k q text := by
  induction h generalizing k with
  | number h => exact ⟨_, .number (isDecimalText_text h)⟩
  | call h => exact h.exists_text.imp fun _ htext => .call h htext
  | @binary op left right _ _ ihleft ihright =>
    obtain ⟨a, ha⟩ := ihleft op.rank
    obtain ⟨b, hb⟩ := ihright (op.rank + 1)
    by_cases hk : k ≤ op.rank
    · exact ⟨_, .binary hk ha hb isSpace_blank isSpace_blank⟩
    · exact ⟨_, .group (.binary (rank_bounds op).1 ha hb isSpace_blank isSpace_blank)⟩

/-! ## From texts to operands -/

theorem Written.solid {q : MetricExpr} {text : List Char} (h : Written schema table k q text) :
    ∃ c more, text = c :: more ∧ Text.isBlank c = false := by
  induction h with
  | number h =>
    obtain ⟨c, more, rfl, hc⟩ := h.isNumber.first
    have hall : "-0123456789".toList.all (fun c => !Text.isBlank c) = true := by decide
    exact ⟨c, more, rfl, by simpa using List.all_eq_true.mp hall c hc⟩
  | @call _ c _ _ h =>
    obtain ⟨_, -, rfl⟩ := h
    cases c.function <;> exact ⟨_, _, rfl, by decide⟩
  | group _ _ => exact ⟨_, _, rfl, by decide⟩
  | binary _ _ _ _ _ ihleft _ =>
    obtain ⟨c, more, rfl, hc⟩ := ihleft
    exact ⟨c, _, rfl, hc⟩

theorem lists_operand {l : List Lexeme} (h : IsCallable scope.schema table c) (hl : SaysCall c l) :
    Lists l (IsOperand scope table k (.call c)) := by
  refine (lists_call h hl).mono ?_
  rintro _ ⟨p, behind, rfl, hread⟩
  refine IsOperand.of_round (by simp) fun s rest => ?_
  have hother : (c.function.keyword == "DATEDIFF") = false := by cases c.function <;> rfl
  show (if (c.function.keyword == "DATEDIFF") = true then _
    else _ : ElementReader (Progress Stacks))
    (behind ++ rest) = _
  rw [hother]
  show (call scope table c.function.keyword (behind ++ rest) >>= fun x => _) = _
  rw [hread]
  rfl

/-- A text of a tree is matched as an operand, and what it says is read as the tree. -/
theorem Written.operand {q : MetricExpr} {text : List Char}
    (h : Written scope.schema table k q text) :
    ∃ l, IsRanked k text l ∧ Lists l (IsOperand scope table k q) := by
  induction h with
  | @number _ value digits h =>
    refine ⟨_, IsRanked.number h.isNumber, (Lists.single rfl).mono ?_⟩
    rintro _ ⟨p, rfl⟩
    have hvalue : decimalOf (String.ofList digits) = .ok value := by simp [decimalOf, h.reads]
    exact IsOperand.of_round (by simp) fun s rest => step_number p hvalue rest
  | call hcall h =>
    obtain ⟨l, hl, hranked⟩ := h.isRanked hcall.names
    exact ⟨l, hranked, lists_operand hcall hl⟩
  | @group _ q _ h ih =>
    obtain ⟨l, hranked, hlists⟩ := ih
    have hclosed : Lists (l ++ [(.symbol, ")")]) (fun es => ∃ inside p,
        IsOperand scope table 1 q inside ∧ es = inside ++ [.token ⟨.symbol, ")", p⟩]) := by
      refine hlists.append (Lists.single rfl) ?_
      rintro inside _ hinside ⟨p, rfl⟩
      exact ⟨inside, p, hinside, rfl⟩
    refine ⟨_, hranked.group h.solid, Lists.cons rfl hclosed ?_⟩
    rintro p _ ⟨inside, p', hinside, rfl⟩
    exact hinside.group p p'
  | @binary _ op _ right _ _ _ _ hk _ hright hbefore hafter ihleft ihright =>
    obtain ⟨a, hranked, hlists⟩ := ihleft
    obtain ⟨b, hranked', hlists'⟩ := ihright
    have hbehind : Lists ((.symbol, op.symbol) :: b) (fun es => ∃ p operand,
        IsOperand scope table (op.rank + 1) right operand ∧
          es = .token ⟨.symbol, op.symbol, p⟩ :: operand) :=
      Lists.cons rfl hlists' fun p operand hoperand => ⟨p, operand, hoperand, rfl⟩
    refine ⟨_, hranked.binary hk hranked' hright.solid hbefore hafter, hlists.append hbehind ?_⟩
    rintro left _ hleft ⟨p, operand, hoperand, rfl⟩
    exact (hleft.binary hoperand p).weaken hk

/-! ## Lists -/

/-- What `build` does with one more metric and the comma behind it. -/
def nextMetric (scope : Filter.Scope) (table : String) (metrics : List MetricExpr) :
    ElementReader (List MetricExpr) := do
  let metric ← expression scope table
  separator .metricSeparator
  return metrics ++ [metric]

/-- The elements are the metrics with commas between them. -/
structure AreMetrics (scope : Filter.Scope) (table : String) (qs : List MetricExpr)
    (es : List Element) : Prop where
  last : ∀ earlier, untilEnd (nextMetric scope table) earlier es = .ok (earlier ++ qs, [])
  comma : ∀ earlier p rest,
    untilEnd (nextMetric scope table) earlier (es ++ .token ⟨.symbol, ",", p⟩ :: rest) =
      untilEnd (nextMetric scope table) (earlier ++ qs) rest

theorem AreMetrics.single {q : MetricExpr} {es : List Element} (h : IsOperand scope table 1 q es) :
    AreMetrics scope table [q] es := by
  constructor
  · intro earlier
    have hend : MetricEnd [] := nofun
    have hround : nextMetric scope table earlier (es ++ []) = .ok (earlier ++ [q], []) := by
      unfold nextMetric
      show (expression scope table (es ++ []) >>= fun x => _) = _
      rw [h.expression hend]
      rfl
    simpa using (untilEnd_more hround h.ne_nil).trans untilEnd_nil
  · intro earlier p rest
    have hround : nextMetric scope table earlier (es ++ [.token ⟨.symbol, ",", p⟩] ++ rest) =
        .ok (earlier ++ [q], rest) := by
      unfold nextMetric
      show (expression scope table (es ++ [.token ⟨.symbol, ",", p⟩] ++ rest) >>= fun x => _) = _
      rw [List.append_assoc, h.expression]
      · rfl
      · rintro _ ⟨⟩
        exact ⟨p, rfl⟩
    simpa using untilEnd_more hround (by simp)

theorem AreMetrics.more {qs : List MetricExpr} {q : MetricExpr} {es other : List Element}
    (h : AreMetrics scope table qs es) (hq : IsOperand scope table 1 q other) (p : Nat) :
    AreMetrics scope table (qs ++ [q]) (es ++ .token ⟨.symbol, ",", p⟩ :: other) := by
  have hone := AreMetrics.single hq
  constructor
  · intro earlier
    rw [h.comma, hone.last, List.append_assoc]
  · intro earlier p' rest
    rw [List.append_assoc, List.cons_append, h.comma, hone.comma, List.append_assoc]

/-- A comma ends a metric, also behind white space. -/
theorem endsSum_comma {before : List Char} (hbefore : ∀ c ∈ before, Text.isBlank c = true)
    (rest : List Char) : EndsSum (before ++ ',' :: rest) := by
  refine endsSum_of_front (c := ',') ?_ ?_ (by decide)
  · cases before with
    | nil => exact endsNumber_of_front (by decide) (by decide)
    | cons c before => exact endsNumber_blank (hbefore c (List.mem_cons_self ..))
  · rw [front, dropBlanks_gap hbefore]
    rfl

theorem Written.isItem {q : MetricExpr} {text : List Char}
    (h : Written scope.schema table 1 q text) :
    ∃ l, IsItem EndsSum (.nonterminal .metric) text l ∧ Lists l (IsOperand scope table 1 q) := by
  obtain ⟨l, hranked, hlists⟩ := h.operand
  exact ⟨l, fun cs rest hcs hrest => Accepts.nonterminal (hranked.isMetric cs rest hcs hrest),
    hlists⟩

/-- A text of trees is matched as a list of metrics, and what it says is read as the trees. -/
theorem WrittenList.leadsList {qs : List MetricExpr} {text : List Char}
    (h : WrittenList scope.schema table qs text) :
    ∃ l, LeadsList EndsSum (.nonterminal .metric) (symbol ",") text l ∧
      Lists l (AreMetrics scope table qs) := by
  induction h with
  | single h =>
    obtain ⟨l, hitem, hlists⟩ := h.isItem
    exact ⟨l, hitem.leadsList, hlists.mono fun _ hes => .single hes⟩
  | @more qs q text other before after h hbefore hafter hq ih =>
    obtain ⟨a, hfront, hlists⟩ := ih
    obtain ⟨b, hitem, hlists'⟩ := hq.isItem
    have hseparator : ∀ rest, Accepts Part.body (symbol ",") (before ++ [','] ++ rest) rest _ :=
      fun rest => Accepts.symbol (by rw [List.append_assoc, dropBlanks_gap hbefore]; rfl)
    have hends : ∀ rest, EndsSum (before ++ [','] ++ rest) := fun rest => by
      rw [List.append_assoc]
      exact endsSum_comma hbefore rest
    have hbehind : Lists ((.symbol, ",") :: b) (fun es => ∃ p operand,
        IsOperand scope table 1 q operand ∧ es = .token ⟨.symbol, ",", p⟩ :: operand) :=
      Lists.cons rfl hlists' fun p operand hoperand => ⟨p, operand, hoperand, rfl⟩
    refine ⟨_, hfront.more hitem (fun _ => hends _) hseparator (by simp) (fun rest => ?_),
      hlists.append hbehind ?_⟩
    · rw [dropBlanks_gap hafter]
      exact dropBlanks_solid hq.solid rest
    · rintro es _ hes ⟨p, operand, hoperand, rfl⟩
      exact hes.more hoperand p

theorem WrittenList.solid {qs : List MetricExpr} {text : List Char}
    (h : WrittenList schema table qs text) :
    ∃ c more, text = c :: more ∧ Text.isBlank c = false := by
  induction h with
  | single h => exact h.solid
  | more _ _ _ _ ih =>
    obtain ⟨c, more, rfl, hc⟩ := ih
    exact ⟨c, _, rfl, hc⟩

theorem WrittenList.isArithmetic {qs : List MetricExpr} {text : List Char}
    (h : WrittenList schema table qs text) : ∀ q ∈ qs, IsArithmetic schema table q := by
  induction h with
  | single h => exact List.forall_mem_singleton.mpr h.isArithmetic
  | more _ _ _ hq ih =>
    exact List.forall_mem_append.mpr ⟨ih, List.forall_mem_singleton.mpr hq.isArithmetic⟩

/-- Trees, at least one, can be written as a list. -/
theorem exists_writtenList {qs : List MetricExpr} (hne : qs ≠ [])
    (h : ∀ q ∈ qs, IsArithmetic schema table q) : ∃ text, WrittenList schema table qs text := by
  induction qs using List.reverseRecOn with
  | nil => exact absurd rfl hne
  | append_singleton qs q ih =>
    rw [List.forall_mem_append, List.forall_mem_singleton] at h
    obtain ⟨other, hother⟩ := h.2.exists_written 1
    by_cases hqs : qs = []
    · subst hqs
      exact ⟨other, .single hother⟩
    · obtain ⟨text, htext⟩ := ih hqs h.1
      exact ⟨_, .more htext (List.forall_mem_nil _) blank_blank hother⟩

/-- The log of trees that are written as a list holds the trees. -/
theorem AreMetrics.build {qs : List MetricExpr} {es : List Element} {log : List Token}
    (h : AreMetrics scope table qs es) (hlog : Adds .list [] log (.ok es)) :
    Metric.build scope table log = .ok qs := by
  have hread : untilEnd (nextMetric scope table) [] es = .ok (qs, []) := by simpa using h.last []
  show (ofTokens .list log >>= fun es => untilEnd (nextMetric scope table) [] es >>= fun x => _) = _
  rw [hlog.ofTokens]
  show (untilEnd (nextMetric scope table) [] es >>= fun x => _) = _
  rw [hread]
  rfl

end Metric

/-! ## Compiling -/

namespace Compiler

open Metric (IsArithmetic WrittenList)

variable {c : Compiler} {table : String}

/-- Without filters there is nothing to settle. -/
theorem settleMetric_arithmetic {q : MetricExpr} (h : IsArithmetic c.schema table q) :
    c.settleMetric table q = .ok q := by
  induction h with
  | number h => rfl
  | @call found h =>
    obtain ⟨function, path, filter, parameter⟩ := found
    obtain rfl : filter = none := h.unrestricted
    rfl
  | binary _ _ ihleft ihright =>
    rw [settleMetric, ihleft]
    show (c.settleMetric table _ >>= _) = _
    rw [ihright]
    rfl

theorem settleMetrics_arithmetic {trees : List MetricExpr}
    (h : ∀ tree ∈ trees, IsArithmetic c.schema table tree) :
    trees.mapM (c.settleMetric table) = .ok trees := by
  have hall := mapM_eq_map fun tree htree => settleMetric_arithmetic (h tree htree)
  rwa [List.map_id'] at hall

/-- Arithmetic over decimals and calls without filters can be written, and however it is written, it
compiles to the same trees in the same order. -/
theorem metrics_written (c : Compiler) {scope : Filter.Scope} (hscope : c.scope = .ok scope)
    (table : String) {trees : List MetricExpr} (hne : trees ≠ [])
    (h : ∀ tree ∈ trees, IsArithmetic c.schema table tree) :
    (∃ text, WrittenList c.schema table trees text) ∧
      ∀ text, WrittenList c.schema table trees text → ∃ enough, ∀ length nesting, enough ≤ length →
        enough ≤ nesting →
        (c.withLimits length nesting).metrics table (String.ofList text) = .ok trees := by
  refine ⟨Metric.exists_writtenList hne h, fun text htext => ?_⟩
  have hschema : scope.schema = c.schema := c.scope_yields.of_ok hscope
  obtain ⟨l, hleads, hlists⟩ :=
    (hschema ▸ htext : WrittenList scope.schema table trees text).leadsList
  have hend : EndsSum [] := ⟨⟨⟨by rintro _ ⟨⟩, by simp⟩, by decide⟩, by decide⟩
  have hstop : Repeats (listStep Part.body (.nonterminal .metric) (symbol ",")) [] [] [] :=
    Repeats.listNone (rejects_of_front 0 rfl (by decide))
  have haccepts : Accepts Part.body ExpressionKind.aggregationMetric.rule text [] (l ++ []) :=
    hleads text [] [] [] (by simpa using dropBlanks_solid htext.solid []) hend hstop
  rw [List.append_nil] at haccepts
  obtain ⟨first, more, hfirst, hsolid⟩ := htext.solid
  have hblank : Text.isBlankText (String.ofList text) = false := by
    rw [Text.isBlankText, String.toList_ofList, hfirst, List.all_cons, hsolid, Bool.false_and]
  obtain ⟨enough, henough⟩ := TokenLog.ofText_of_accepts hblank
    (by rwa [String.toList_ofList] : Accepts Part.body ExpressionKind.aggregationMetric.rule
      (String.ofList text).toList [] l)
  refine ⟨enough, fun length nesting hlength hnesting => ?_⟩
  obtain ⟨tokens, htokens, hread⟩ :=
    henough (c.withLimits length nesting).settings hlength hnesting
  obtain ⟨es, hes, hmetrics⟩ := hlists tokens htokens
  have hbuild : (c.withLimits length nesting).buildMetrics table tokens = .ok trees := by
    have hscope' : (c.withLimits length nesting).scope = .ok scope := hscope
    rw [buildMetrics, hscope']
    exact hmetrics.build hes
  rw [metrics, Compiler.log, hread]
  show ((c.withLimits length nesting).buildMetrics table tokens >>= fun found => _) = _
  rw [hbuild]
  exact settleMetrics_arithmetic h

/-- The distinct names of the bosses, taken from two. -/
def fewerNames : MetricExpr :=
  .binary .subtract (.number ⟨2, 0⟩) (.call ⟨.distinct, ["Boss", "Name"], none, none⟩)

theorem isDecimalText_two : Metric.IsDecimalText ⟨2, 0⟩ ['2'] :=
  ⟨.whole (by simp) (List.forall_mem_singleton.mpr rfl), by decide +kernel⟩

theorem written_fewerNames :
    Metric.Written staff.schema "Person" 1 fewerNames "2 - DISTINCT(Boss.Name)".toList := by
  have halong : staff.schema.Along "Person" ["Boss", "Name"] [.link "Person", .scalar .text] :=
    .step rfl rfl (.last rfl)
  have hnames : ∀ name ∈ ["Boss", "Name"], IsWord name := by
    simp only [List.mem_cons, List.not_mem_nil, or_false, forall_eq_or_imp, forall_eq]
    exact ⟨⟨by decide, by decide, by decide +kernel⟩, ⟨by decide, by decide, by decide +kernel⟩⟩
  have hrank : 1 ≤ ArithmeticOp.subtract.rank := by decide
  exact .binary hrank (.number isDecimalText_two)
    (.call ⟨rfl, hnames, Or.inr ⟨_, halong, by simp [MetricFunction.needsOrder]⟩, by simp, by simp⟩
      ⟨[], .none, rfl⟩) Metric.isSpace_blank Metric.isSpace_blank

/-- A subtrahend in parentheses stays in one piece, in the second of two metrics. -/
theorem metrics_written_staff : ∃ enough, ∀ length nesting, enough ≤ length → enough ≤ nesting →
    (staff.withLimits length nesting).metrics "Person"
        "((COUNT(*))), 2 - (2 - DISTINCT(Boss.Name)) / 2" =
      .ok [.call ⟨.count, [], none, none⟩,
        .binary .subtract (.number ⟨2, 0⟩) (.binary .divide fewerNames (.number ⟨2, 0⟩))] := by
  have hcount : Metric.IsCallable staff.schema "Person" ⟨.count, [], none, none⟩ :=
    ⟨rfl, by simp, Or.inl ⟨rfl, rfl⟩, by simp, by simp⟩
  have hdivide : 2 ≤ ArithmeticOp.divide.rank := by decide
  have hsubtract : 1 ≤ ArithmeticOp.subtract.rank := by decide
  have hquotient : Metric.Written staff.schema "Person" 2
      (.binary .divide fewerNames (.number ⟨2, 0⟩)) "(2 - DISTINCT(Boss.Name)) / 2".toList :=
    .binary hdivide (.group written_fewerNames) (.number isDecimalText_two) Metric.isSpace_blank
      Metric.isSpace_blank
  have htext : WrittenList staff.schema "Person" _
      "((COUNT(*))), 2 - (2 - DISTINCT(Boss.Name)) / 2".toList :=
    .more (.single (.group (.group (.call hcount ⟨[], .none, rfl⟩)))) (List.forall_mem_nil _) Metric.blank_blank
      (.binary hsubtract (.number isDecimalText_two) hquotient Metric.isSpace_blank Metric.isSpace_blank)
  have hscope : staff.scope.toOption.isSome = true := by decide +kernel
  obtain ⟨scope, hscope⟩ := Option.isSome_iff_exists.mp hscope
  have hall := (metrics_written staff (toOption_eq_some hscope) "Person" (by simp)
    htext.isArithmetic).2 _ htext
  rwa [String.ofList_toList] at hall

end Compiler

end LinkQuery
