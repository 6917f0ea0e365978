import LinkQuery.FieldSet
import LinkQuery.Proofs.FilterLogs
/-!
# Reading the logs of field sets

The log of a field set becomes a forest whose filters are logs of filters, and its entries are read
against the schema.

Main statements:
- `FieldNode.collects_fieldList`: the nodes of the log of a list of fields.
- `FieldSet.build_yields`: the field set of a log.
-/
namespace LinkQuery

open Rule Language
open Time (Timestamp)

namespace FieldNode

/-- The filters of the node and of the nodes below it are logs of filters. -/
inductive Proper : FieldNode → Prop
  | node (name : String) (position : Nat) (limit : Option Nat) {filters : List (List Token)}
    {children : List FieldNode} (hfilters : ∀ filter ∈ filters, Path.FilterLog filter)
    (hchildren : ∀ child ∈ children, Proper child) :
    Proper (.node name position limit filters children)

namespace Proper

variable {n : FieldNode}

theorem named (name : String) (position : Nat) : (FieldNode.named name position).Proper :=
  .node name position none (by simp) (by simp)

theorem limitedTo (h : n.Proper) (limit : Nat) : (n.limitedTo limit).Proper := by
  cases h with
  | node name position _ hfilters hchildren => exact .node name position _ hfilters hchildren

theorem filteredBy (h : n.Proper) {filter : List Token} (hfilter : Path.FilterLog filter) :
    (n.filteredBy filter).Proper := by
  cases h with
  | node name position limit hfilters hchildren =>
    refine .node name position limit (fun other hother => ?_) hchildren
    rcases List.mem_append.mp hother with hother | hother
    · exact hfilters other hother
    · rw [List.mem_singleton.mp hother]
      exact hfilter

theorem withChildren (h : n.Proper) {more : List FieldNode} (hmore : ∀ child ∈ more, child.Proper) :
    (n.withChildren more).Proper := by
  cases h with
  | node name position limit hfilters hchildren =>
    refine .node name position limit hfilters fun child hchild => ?_
    rcases List.mem_append.mp hchild with hchild | hchild
    · exact hchildren child hchild
    · exact hmore child hchild

end Proper

/-! ## Reading nodes -/

section Steps

variable (frames : List Frame) (read before : List FieldNode) (last : FieldNode)
  (rest : List Token) (p : Nat)

theorem collect_word (name : String) :
    collect frames read (⟨.word, name, p⟩ :: rest) = collect frames (.named name p :: read) rest := by
  rw [collect.eq_def]
  simp [Token.isSymbol]

theorem collect_star :
    collect frames read (⟨.symbol, "*", p⟩ :: rest) = collect frames (.named "*" p :: read) rest := by
  rw [collect.eq_def]
  simp [Token.isSymbol]

theorem collect_comma :
    collect frames read (⟨.symbol, ",", p⟩ :: rest) = collect frames read rest := by
  rw [collect.eq_def]
  simp [Token.isSymbol]

theorem collect_limit {value : String} {limit : Nat} (h : Text.unsigned? 64 value = some limit) :
    collect frames (last :: before) (⟨.number, value, p⟩ :: rest) =
      collect frames (last.limitedTo limit :: before) rest := by
  rw [collect.eq_def]
  simp [Token.isSymbol, h]

theorem collect_badLimit {value : String} (h : Text.unsigned? 64 value = none) :
    collect frames (last :: before) (⟨.number, value, p⟩ :: rest) =
      invalid (.fieldLimit value last.name) := by
  rw [collect.eq_def]
  simp [Token.isSymbol, h]

theorem collect_block {block tokens : List Token} (h : Block.take? tokens = some (block, rest)) :
    collect frames (last :: before) (⟨.marker .whereStart, "", p⟩ :: tokens) =
      collect frames (last.filteredBy block :: before) rest := by
  rw [collect.eq_def]
  simp only [Token.isSymbol, Token.isMarker]
  grind

theorem collect_childrenStart :
    collect frames read (⟨.marker .childrenStart, "", p⟩ :: rest) =
      collect (⟨⟨.marker .childrenStart, "", p⟩, read⟩ :: frames) [] rest := by
  rw [collect.eq_def]
  simp [Token.isSymbol, Token.isMarker]

theorem collect_childrenEnd (opening : Token) :
    collect (⟨opening, last :: before⟩ :: frames) read (⟨.marker .childrenEnd, "", p⟩ :: rest) =
      collect frames (last.withChildren read.reverse :: before) rest := by
  rw [collect.eq_def]
  simp [Token.isSymbol, Token.isMarker]

end Steps

/-- Reading the log leads from the nodes read so far to others, or refuses the expression. -/
def Leads (frames : List Frame) (read : List FieldNode) (log : List Token)
    (P : List FieldNode → Prop) : Prop :=
  (∃ cause, ∀ rest, collect frames read (log ++ rest) = invalid cause) ∨
    ∃ read', P read' ∧ ∀ rest, collect frames read (log ++ rest) = collect frames read' rest

namespace Leads

variable {frames : List Frame} {read : List FieldNode} {P Q : List FieldNode → Prop}

theorem nil (h : P read) : Leads frames read [] P :=
  Or.inr ⟨read, h, fun _ => rfl⟩

theorem append {a b : List Token} (ha : Leads frames read a P)
    (hb : ∀ read', P read' → Leads frames read' b Q) : Leads frames read (a ++ b) Q := by
  rcases ha with ⟨cause, ha⟩ | ⟨read', hread', ha⟩
  · exact Or.inl ⟨cause, fun rest => by rw [List.append_assoc, ha]⟩
  · rcases hb read' hread' with ⟨cause, hb⟩ | ⟨read'', hread'', hb⟩
    · exact Or.inl ⟨cause, fun rest => by rw [List.append_assoc, ha, hb]⟩
    · exact Or.inr ⟨read'', hread'', fun rest => by rw [List.append_assoc, ha, hb]⟩

theorem cons {t : Token} {read' : List FieldNode} {b : List Token}
    (h : ∀ rest, collect frames read (t :: rest) = collect frames read' rest)
    (hb : Leads frames read' b P) : Leads frames read (t :: b) P :=
  append (a := [t]) (P := (· = read')) (Or.inr ⟨read', rfl, h⟩) fun _ heq => heq ▸ hb

end Leads

/-- All nodes read so far are proper. -/
def AllProper (read : List FieldNode) : Prop := ∀ n ∈ read, n.Proper

/-- All nodes read so far are proper, and there is one. -/
def Started (read : List FieldNode) : Prop :=
  ∃ last before, read = last :: before ∧ last.Proper ∧ AllProper before

theorem Started.allProper {read : List FieldNode} (h : Started read) : AllProper read := by
  obtain ⟨last, before, rfl, hlast, hbefore⟩ := h
  exact List.forall_mem_cons.mpr ⟨hlast, hbefore⟩

section Logs

variable {n : Nat} {log : List Token} {frames : List Frame} {read : List FieldNode}

theorem leads_blocks (hread : Started read)
    (h : Repeated (Produces (Generates Part.body n) whereBlock) log) :
    Leads frames read log Started := by
  obtain ⟨parts, rfl, hparts⟩ := h
  induction parts generalizing read with
  | nil => exact Leads.nil hread
  | cons part parts ih =>
    simp only [List.mem_cons, forall_eq_or_imp] at hparts
    refine Leads.append (P := Started) ?_ fun read' hread' => ih hread' hparts.2
    have hblock := hparts.1
    rw [produces_whereBlock] at hblock
    obtain ⟨_, _, rfl, ⟨p, rfl⟩, block, _, rfl, hfilter, q, rfl⟩ := hblock
    obtain ⟨last, before, rfl, hlast, hbefore⟩ := hread
    have hlog : Path.FilterLog block := ⟨n, hfilter⟩
    refine Or.inr ⟨_, ⟨_, before, rfl, hlast.filteredBy hlog, hbefore⟩, fun rest => ?_⟩
    have htake := Block.take?_balanced hlog.balanced q rest
    simpa using collect_block frames before last rest p htake

theorem leads_limit (hread : Started read)
    (h : log = [] ∨ ∃ value, Single .number value log) : Leads frames read log Started := by
  rcases h with rfl | ⟨value, p, rfl⟩
  · exact Leads.nil hread
  · obtain ⟨last, before, rfl, hlast, hbefore⟩ := hread
    cases hlimit : Text.unsigned? 64 value with
    | none => exact Or.inl ⟨_, fun rest => collect_badLimit frames before last rest p hlimit⟩
    | some limit =>
      exact Or.inr ⟨_, ⟨_, before, rfl, hlast.limitedTo limit, hbefore⟩,
        fun rest => collect_limit frames before last rest p hlimit⟩

/-- The nodes below a node, those of their logs given. -/
theorem leads_children {inside : List Token} (p q : Nat) (hread : Started read)
    (h : ∀ frames, Leads frames [] inside AllProper) :
    Leads frames read (⟨.marker .childrenStart, "", p⟩ :: (inside ++ [⟨.marker .childrenEnd, "", q⟩]))
      Started := by
  obtain ⟨last, before, rfl, hlast, hbefore⟩ := hread
  rcases h (⟨⟨.marker .childrenStart, "", p⟩, last :: before⟩ :: frames) with
    ⟨cause, h⟩ | ⟨children, hchildren, h⟩
  · refine Or.inl ⟨cause, fun rest => ?_⟩
    rw [List.cons_append, collect_childrenStart, List.append_assoc, h]
  · refine Or.inr ⟨_, ⟨last.withChildren children.reverse, before, rfl, ?_, hbefore⟩,
      fun rest => ?_⟩
    · exact hlast.withChildren fun child hchild => hchildren child (List.mem_reverse.mp hchild)
    · rw [List.cons_append, collect_childrenStart, List.append_assoc, h, List.singleton_append,
        collect_childrenEnd]

/-- The nodes of a field, those of the fields below it given. -/
theorem leads_fieldItem
    (hbelow : ∀ log, (Generates Part.body n .fieldList log ∨ Generates Part.body n .fieldItem log) →
      ∀ frames, Leads frames [] log AllProper)
    (hread : AllProper read) (h : Produces (Generates Part.body n) Language.fieldItem log) :
    Leads frames read log Started := by
  rw [produces_fieldItem] at h
  rcases h with ⟨p, rfl⟩ | ⟨_, _, rfl, ⟨name, p, rfl⟩, limit, _, rfl, hlimit, blocks, children, rfl,
    hblocks, hchildren⟩
  · exact Or.inr ⟨_, ⟨_, read, rfl, Proper.named "*" p, hread⟩,
      fun rest => collect_star frames read rest p⟩
  · show Leads frames read (⟨.word, name, p⟩ :: (limit ++ (blocks ++ children))) Started
    refine Leads.cons (fun rest => collect_word frames read rest p name) ?_
    have hstarted : Started (.named name p :: read) := ⟨_, read, rfl, Proper.named name p, hread⟩
    refine Leads.append (leads_limit hstarted hlimit) fun read hread => ?_
    refine Leads.append (leads_blocks hread hblocks) fun read hread => ?_
    rcases hchildren with rfl | ⟨_, _, rfl, ⟨q, rfl⟩, inside, _, rfl, hinside, r, rfl⟩
    · exact Leads.nil hread
    · exact leads_children q r hread (hbelow inside hinside)

/-- The nodes of a list of fields, those of its fields given. -/
theorem leads_fieldList
    (hitem : ∀ frames read log, AllProper read → Generates Part.body n .fieldItem log →
      Leads frames read log Started)
    (hread : AllProper read) (h : Produces (Generates Part.body n) Language.fieldList log) :
    Leads frames read log Started := by
  simp only [Language.fieldList, Produces, produces_symbol] at h
  obtain ⟨first, _, rfl, hfirst, parts, rfl, hparts⟩ := h
  refine Leads.append (hitem frames read first hread hfirst) fun read hread => ?_
  induction parts generalizing read with
  | nil => exact Leads.nil hread
  | cons part parts ih =>
    simp only [List.mem_cons, forall_eq_or_imp] at hparts
    obtain ⟨⟨_, item, rfl, ⟨p, rfl⟩, hone⟩, hparts⟩ := hparts
    refine Leads.append ?_ fun read hread => ih hparts read hread
    refine Leads.cons (fun rest => collect_comma frames read rest p) ?_
    exact hitem frames read item hread.allProper hone

/-- The nodes of the log of a field or of a list of fields. -/
theorem leads_fields (hread : AllProper read)
    (h : Generates Part.body n .fieldItem log ∨ Generates Part.body n .fieldList log) :
    Leads frames read log Started := by
  induction n generalizing frames read log with
  | zero => exact h.elim False.elim False.elim
  | succ n ih =>
    rcases h with h | h
    · refine leads_fieldItem (fun log hlog frames => ?_) hread h
      have hlead : Leads frames [] log Started := ih nofun hlog.symm
      rcases hlead with hrefused | ⟨read, hread, hlead⟩
      · exact Or.inl hrefused
      · exact Or.inr ⟨read, hread.allProper, hlead⟩
    · exact leads_fieldList (fun _ _ _ hread hitem => ih hread (Or.inl hitem)) hread h

end Logs

/-- The nodes of the log of a list of fields. -/
theorem ofTokens_yields {n : Nat} {log : List Token} (h : Generates Part.body n .fieldList log) :
    Yields AllProper (ofTokens log) := by
  have hlead : Leads [] [] log Started := leads_fields nofun (Or.inr h)
  unfold ofTokens
  rcases hlead with ⟨cause, hrefused⟩ | ⟨read, hread, hlead⟩
  · have hrefused := hrefused []
    rw [List.append_nil] at hrefused
    rw [hrefused]
    trivial
  · have hlead := hlead []
    rw [List.append_nil, collect.eq_def [] read] at hlead
    rw [hlead]
    exact fun node hnode => hread.allProper node (List.mem_reverse.mp hnode)

end FieldNode

/-! ## Entries -/

namespace FieldSet

open LinkQuery.Filter (Scope buildAll buildAll_yields)

variable {scope : Scope} {table : String} {good : Timestamp → Prop}

theorem itemsBelow_yields {target : Option String} {parent : String} {nodes : List FieldNode}
    (h : ∀ node ∈ nodes, ∀ table, Yields (fun _ => True) (item scope table node)) :
    Yields (fun _ => True) (itemsBelow scope target parent nodes) := by
  induction nodes with
  | nil => trivial
  | cons node rest ih =>
    simp only [List.mem_cons, forall_eq_or_imp] at h
    cases target with
    | none => trivial
    | some target => exact (h.1 target).bind fun first _ => (ih h.2).bind fun _ _ => trivial

theorem item_yields (hclock : scope.clock.Shows good) {node : FieldNode} (h : node.Proper) :
    Yields (fun _ => True) (item scope table node) := by
  induction h generalizing table with
  | @node name position limit filters children hfilters _ ih =>
    unfold item
    split
    · trivial
    refine Schema.role_yields.bind fun role _ => ?_
    have hcheck : Yields (fun _ => True) (checkField role name limit filters) := by
      unfold checkField
      split <;> trivial
    refine hcheck.bind fun _ _ => ?_
    refine (itemsBelow_yields fun child hchild table => ih child hchild).bind fun below _ => ?_
    have hfilter : Yields (fun _ => True) (linkFilter scope role filters) := by
      unfold linkFilter
      split
      · exact (buildAll_yields hclock hfilters).mono fun _ _ => trivial
      · trivial
    exact hfilter.bind fun _ _ => trivial

/-- The field set of a log. -/
theorem build_yields (hclock : scope.clock.Shows good) {n : Nat} {log : List Token}
    (h : log ≠ [] → Generates Part.body n .fieldList log) :
    Yields (fun _ => True) (build scope table log) := by
  unfold build
  split
  · trivial
  · rename_i hempty
    refine (FieldNode.ofTokens_yields (h (by simpa using hempty))).bind fun nodes hnodes => ?_
    have hitems : Yields (fun _ => True) (nodes.mapM (item scope table)) :=
      (Yields.mapM fun node hnode => item_yields hclock (hnodes node hnode)).mono fun _ _ => trivial
    exact hitems.bind fun _ _ => trivial

end FieldSet

end LinkQuery
