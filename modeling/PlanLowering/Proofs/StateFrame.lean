import PlanLowering.Program.Lower
import PlanLowering.Proofs.Outcome

/-!
# What passes do to the state

Passes draw, take fresh ids and reserve pages, and do nothing else to the state. A relation that
these three respect holds between the states before and after every pass. Recording clobbers is
no part of a pass.
-/

namespace PlanLowering

inductive FreshIds.Family : (FreshIds → Id × FreshIds) → Prop where
  | value : Family value
  | dataPage : Family dataPage
  | codePage : Family codePage
  | label : Family label
  | named (stem : String) : Family (named stem)

def FreshIds.Numbers (low high : Nat) (id : Id) : Prop := ∃ k, low ≤ k ∧ k < high ∧ id = s!"r{k}"

theorem FreshIds.Numbers.mono {low low' high high' : Nat} {id : Id} (h : Numbers low high id)
    (hlow : low' ≤ low) (hhigh : high ≤ high') : Numbers low' high' id := by
  obtain ⟨k, hk, hk', rfl⟩ := h
  exact ⟨k, by omega, by omega, rfl⟩

namespace Lower

theorem freshValue_ok {context : Context} {state state' : State} {id : Id}
    (h : Lower.freshValue context state = .ok id state') :
    id = s!"r{state.ids.values}" ∧ state'.ids.values = state.ids.values + 1 := by
  obtain ⟨rfl, rfl⟩ := Lower.fresh_ok.1 h
  exact ⟨rfl, rfl⟩

/-- A relation between states that every access of a pass respects. Passes reserve data pages
only. -/
class DataFrame (R : State → State → Prop) : Prop where
  refl : ∀ s, R s s
  trans : ∀ s t u, R s t → R t u → R s u
  random : ∀ s source, R s { s with random := source }
  ids : ∀ s next, FreshIds.Family next → R s { s with ids := (next s.ids).2 }
  data : ∀ (s : State) id spec, ¬ s.pages.isLabel id →
    R s { s with pages := s.pages.add .data id spec }

/-- A relation that canonicalization respects too, which reserves code pages as well. -/
class Frame (R : State → State → Prop) : Prop extends DataFrame R where
  pages : ∀ (s : State) kind id spec, ¬ s.pages.isLabel id →
    R s { s with pages := s.pages.add kind id spec }
  data s := pages s .data

def SameClobbers (s t : State) : Prop := t.clobbers = s.clobbers

instance : Frame SameClobbers where
  refl _ := rfl
  trans _ _ _ hst htu := Eq.trans htu hst
  random _ _ := rfl
  ids _ _ _ := rfl
  pages _ _ _ _ _ := rfl

def CountsOn (s t : State) : Prop := s.ids.values ≤ t.ids.values

instance : Frame CountsOn where
  refl _ := Nat.le_refl _
  trans _ _ _ hst htu := Nat.le_trans hst htu
  random _ _ := Nat.le_refl _
  ids s _ hnext := by
    cases hnext with
    | value => exact Nat.le_succ _
    | _ => exact Nat.le_refl s.ids.values
  pages _ _ _ _ _ := Nat.le_refl _

variable {α β : Type} {R : State → State → Prop} {context : Context} {state state' : State}

def Moves (R : State → State → Prop) (m : Lower α) : Prop :=
  ∀ context state a state', m context state = .ok a state' → R state state'

namespace Moves

theorem throw_bind (e : LoweringError) (f : α → Lower β) :
    Moves R ((throw e : Lower α) >>= f) := by
  intro context state b state' h
  obtain ⟨a, next, ha, _⟩ := bind_ok.1 h
  rw [throw_ok] at ha
  exact ha.elim

theorem throw (e : LoweringError) : Moves R (throw e : Lower α) := by
  intro context state b state' h
  rw [throw_ok] at h
  exact h.elim

theorem ite {p : Prop} [Decidable p] {m m' : Lower α} (hm : Moves R m)
    (hm' : Moves R m') : Moves R (if p then m else m') := by
  split
  · exact hm
  · exact hm'

theorem expanding {m : Lower α} (action : String) (h : Moves R m) :
    Moves R (Lower.expanding action m) := by
  intro context state a state' hm
  exact h _ _ _ _ (expanding_ok.1 hm)

variable [DataFrame R]

theorem pure (a : α) : Moves R (pure a : Lower α) := by
  intro context state b state' h
  rw [pure_ok] at h
  exact h.2 ▸ DataFrame.refl state

theorem bind {m : Lower α} {f : α → Lower β} (hm : Moves R m) (hf : ∀ a, Moves R (f a)) :
    Moves R (m >>= f) := by
  intro context state b state' h
  obtain ⟨a, next, ha, hb⟩ := bind_ok.1 h
  exact DataFrame.trans _ _ _ (hm _ _ _ _ ha) (hf a _ _ _ _ hb)

theorem read : Moves R (read : Lower Context) := by
  intro context state b state' h
  rw [read_ok] at h
  exact h.2 ▸ DataFrame.refl state

theorem get : Moves R (get : Lower State) := by
  intro context state b state' h
  rw [get_ok] at h
  exact h.2 ▸ DataFrame.refl state

theorem ofExcept (x : Except LoweringError α) : Moves R (Lower.ofExcept x) := by
  intro context state b state' h
  rw [ofExcept_ok] at h
  exact h.2 ▸ DataFrame.refl state

theorem draw (d : Draw α) : Moves R (Lower.draw d) := by
  intro context state b state' h
  obtain ⟨source, _, rfl⟩ := draw_ok.1 h
  exact DataFrame.random state source

theorem fresh {next : FreshIds → Id × FreshIds} (hnext : FreshIds.Family next) :
    Moves R (Lower.fresh next) := by
  intro context state b state' h
  obtain ⟨_, rfl⟩ := fresh_ok.1 h
  exact DataFrame.ids state next hnext

theorem reserveData (id : Id) (spec : PageSpec) : Moves R (Lower.reserve .data id spec) := by
  intro context state b state' h
  obtain ⟨hnew, rfl⟩ := reserve_ok.1 h
  exact DataFrame.data state id spec hnew

omit [DataFrame R] in
theorem reserve [Frame R] (kind : PageKind) (id : Id) (spec : PageSpec) :
    Moves R (Lower.reserve kind id spec) := by
  intro context state b state' h
  obtain ⟨hnew, rfl⟩ := reserve_ok.1 h
  exact Frame.pages state kind id spec hnew

theorem freshValue : Moves R Lower.freshValue := fresh .value
theorem freshDataPage : Moves R Lower.freshDataPage := fresh .dataPage
theorem freshCodePage : Moves R Lower.freshCodePage := fresh .codePage
theorem freshLabel : Moves R Lower.freshLabel := fresh .label
theorem freshNamed (stem : String) : Moves R (Lower.freshNamed stem) := fresh (.named stem)

theorem targetLevel (level : UInt8) (recursive : Bool) :
    Moves R (Lower.targetLevel level recursive) := by
  unfold Lower.targetLevel
  exact bind read fun _ => ofExcept _

theorem environment : Moves R Lower.environment := by
  unfold Lower.environment
  exact bind read fun _ => pure _

theorem options : Moves R Lower.options := by
  unfold Lower.options
  exact bind read fun _ => pure _

theorem instruction (name : String) : Moves R (Lower.instruction name) := by
  unfold Lower.instruction
  exact bind read fun _ => ofExcept _

theorem chooseFrom (candidates : List Template) (filter : TemplateFilter) :
    Moves R (Lower.chooseFrom candidates filter) := by
  unfold Lower.chooseFrom
  refine bind (draw _) fun found => ?_
  cases found with
  | none => exact throw _
  | some t => exact pure _

theorem choose (filter : TemplateFilter) : Moves R (Lower.choose filter) := by
  unfold Lower.choose
  exact bind read fun _ => chooseFrom _ _

theorem expect (action : String) (missing : ExpansionResult) (a : Option α) :
    Moves R (Lower.expect action missing a) := by
  cases a with
  | none => exact throw _
  | some a => exact pure a

end Moves

variable [DataFrame R]

section Expansion

theorem reserveNew_moves (flags : PageFlags) : Moves R (Access.reserveNew flags) :=
  .bind (.draw _) fun _ => .bind .freshDataPage fun _ => .bind (.reserveData _ _) fun _ => .pure _

theorem anchor_moves (flags : PageFlags) (a : Access) : Moves R (a.anchor flags) := by
  unfold Access.anchor
  split
  · exact .bind (reserveNew_moves flags) fun _ => .pure _
  · exact .bind .get fun _ => .ite (.pure _) (.throw _)
  · exact .pure _
  · exact .pure _

theorem widen_moves (address : List Action) (a : Access) : Moves R (a.widen address) := by
  unfold Access.widen
  refine .ite (.pure _) ?_
  cases a.base with
  | none => exact .throw _
  | some base => exact .bind .freshValue fun _ => .bind .freshValue fun _ => .pure _

theorem accessExpand_moves (flags : PageFlags) (a : Access) : Moves R (a.expand flags) := by
  unfold Access.expand
  refine .bind (anchor_moves flags a) fun anchored => ?_
  obtain ⟨a, label⟩ := anchored
  cases label with
  | none => exact widen_moves _ _
  | some label => exact .bind .freshValue fun _ => widen_moves _ _

theorem csrWriteExpand_moves (w : CsrWrite) : Moves R w.expand := by
  unfold CsrWrite.expand
  refine .bind .environment fun env => ?_
  cases w.src with
  | some src => exact .ite (.bind .freshValue fun _ => .pure _) (.pure _)
  | none =>
    cases w.value with
    | some v => exact .ite (.pure _) (.bind .freshValue fun _ => .pure _)
    | none =>
      exact .bind (.draw _) fun _ => .ite (.pure _) (.bind .freshValue fun _ => .pure _)

theorem expandWrite_moves (t : PteTarget) : Moves R t.expandWrite := by
  unfold PteTarget.expandWrite
  cases t.src with
  | some src => exact .bind (.pure _) fun _ => .bind .freshValue fun _ => .pure _
  | none =>
    exact .bind (.draw _) fun _ => .bind (.pure _) fun _ => .bind .freshValue fun _ => .pure _

theorem readThroughT2_moves (id : Id) (op : Op) : Moves R (Op.readThroughT2 id op) :=
  .bind .freshValue fun _ => .pure _

theorem opExpand_moves (id : Id) (op : Op) : Moves R (op.expand id) := by
  cases op with
  | load access => exact .bind (accessExpand_moves _ _) fun _ => .pure _
  | store access value => exact .bind (accessExpand_moves _ _) fun _ => .pure _
  | call target base => exact .bind .freshValue fun _ => .pure _
  | csrRead csr direct =>
    exact .bind .environment fun _ => .ite (readThroughT2_moves _ _) (.pure _)
  | csrWrite w => exact .bind (csrWriteExpand_moves w) fun _ => .pure _
  | compare relation lhs rhs pass =>
    exact .bind (.freshNamed _) fun _ => .bind .freshValue fun _ => .bind .freshLabel fun _ =>
      .pure _
  | jumpToFail address =>
    exact .bind .options fun _ => .bind .environment fun _ => .bind .freshValue fun _ =>
      .bind .freshValue fun _ => .pure _
  | readPte target => exact readThroughT2_moves _ _
  | writePte target => exact .bind (expandWrite_moves target) fun _ => .pure _
  | modifyPte page level recursive =>
    exact .bind (.targetLevel _ _) fun _ => .bind .environment fun _ => .bind .freshValue fun _ =>
      .bind .freshValue fun _ => .pure _
  | _ => exact .pure _

mutual

theorem expand_moves (a : Action) : Moves R a.expand := by
  match a with
  | .simple id true op => rw [Action.expand]; exact .pure _
  | .simple id false op => rw [Action.expand]; exact opExpand_moves id op
  | .block id true owner code => rw [Action.expand]; exact .pure _
  | .block id false (.codePage spec) code =>
    rw [Action.expand]
    exact .bind .freshValue fun _ => .pure _
  | .block id false (.assertException cause fault resume) code =>
    rw [Action.expand]
    split
    · exact .throw_bind _ _
    · exact .bind (expandEach_moves code) fun _ => .bind (.freshNamed _) fun _ =>
        .bind (.freshNamed _) fun _ => .bind .freshLabel fun _ => .bind .freshValue fun _ =>
          .bind .freshLabel fun _ => .pure _

theorem expandEach_moves (actions : List Action) : Moves R (Action.expandEach actions) := by
  match actions with
  | [] => rw [Action.expandEach]; exact .pure _
  | a :: rest =>
    rw [Action.expandEach]
    exact .bind (expand_moves a) fun _ => .bind (expandEach_moves rest) fun _ => .pure _

end

theorem expandWithin_moves (turns : Nat) (actions : List Action) :
    Moves R (expandWithin turns actions) := by
  induction turns generalizing actions with
  | zero => exact .pure _
  | succ turns ih =>
    cases actions with
    | nil => exact .pure _
    | cons a rest =>
      rw [expandWithin]
      refine .bind (.expanding _ (expand_moves a)) fun expansion => ?_
      cases expansion with
      | alone a => exact .bind (ih rest) fun _ => .pure _
      | spliced actions => exact ih _

theorem expandAll_moves (actions : List Action) : Moves R (expandAll actions) :=
  expandWithin_moves _ _

end Expansion

section Selection

theorem wireSource_moves (slot : Slot) (src : Option Id) (action : String) (i : Instruction) :
    Moves R (Arithmetic.wireSource slot src action i) := by
  unfold Arithmetic.wireSource
  split
  · exact .ofExcept _
  · exact .bind .freshValue fun _ => .ofExcept _
  · exact .throw _
  · exact .pure _

theorem wireImmediate_moves (imm : Option Int) (action : String) (i : Instruction) :
    Moves R (Arithmetic.wireImmediate imm action i) := by
  unfold Arithmetic.wireImmediate
  split
  · exact .ofExcept _
  · exact .bind (.draw _) fun _ => .ofExcept _
  · exact .throw _
  · exact .pure _

theorem arithmeticTemplate_moves (a : Arithmetic) : Moves R a.template := by
  unfold Arithmetic.template
  refine .bind .read fun context => ?_
  split
  · exact .pure _
  · exact .choose _

theorem arithmeticSelect_moves (a : Arithmetic) (action : String) : Moves R (a.select action) :=
  .bind (arithmeticTemplate_moves a) fun _ => .bind (wireSource_moves _ _ _ _) fun _ =>
    .bind (wireSource_moves _ _ _ _) fun _ => .bind (wireImmediate_moves _ _ _) fun _ =>
      wireSource_moves _ _ _ _

theorem accessTemplate_moves (a : Access) (filter : TemplateFilter) (skip : List String) :
    Moves R (a.template filter skip) := by
  unfold Access.template
  split
  · exact .instruction _
  · exact .bind (.bind .read fun _ => .pure _) fun _ => .chooseFrom _ _

theorem accessWire_moves (a : Access) (action : String) (i : Instruction) :
    Moves R (a.wire action i) := by
  unfold Access.wire
  split
  · exact .bind (.ofExcept _) fun _ => .bind (.expect _ _ _) fun _ => .ofExcept _
  · split
    · exact .throw_bind _ _
    · exact .bind (.pure _) fun _ => .bind (.expect _ _ _) fun _ => .ofExcept _

theorem selectLoad_moves (a : Access) (action : String) : Moves R (a.selectLoad action) :=
  .bind (accessTemplate_moves _ _ _) fun _ => accessWire_moves _ _ _

theorem selectStore_moves (a : Access) (value : Option Id) (action : String) :
    Moves R (a.selectStore value action) := by
  unfold Access.selectStore
  refine .bind (accessTemplate_moves _ _ _) fun _ => .bind (accessWire_moves _ _ _) fun _ => ?_
  cases value with
  | some id => exact .bind (.pure _) fun _ => .ofExcept _
  | none => exact .bind .freshValue fun _ => .ofExcept _

theorem csrWriteSelect_moves (w : CsrWrite) (action : String) : Moves R (w.select action) := by
  unfold CsrWrite.select
  refine .bind .environment fun _ => .ite (.pure _) ?_
  split
  · exact .bind (.instruction _) fun _ => .bind (.ofExcept _) fun _ => .ofExcept _
  · exact .bind (.instruction _) fun _ => .bind (.ofExcept _) fun _ =>
      .bind (.expect _ _ _) fun _ => .ofExcept _

theorem selectLi_moves (v : Immediate) (action : String) : Moves R (Op.selectLi v action) :=
  .bind (.instruction _) fun _ => .ofExcept _

theorem opSelect_moves (id : Id) (action : String) (op : Op) : Moves R (op.select id action) := by
  cases op with
  | arithmetic a => exact arithmeticSelect_moves a action
  | li v => exact selectLi_moves v action
  | liToT2 v => exact .bind (selectLi_moves v action) fun _ => .bind (.ofExcept _) fun _ => .pure _
  | moveToT2 src =>
    exact .bind (.instruction _) fun _ => .bind (.ofExcept _) fun _ => .bind (.ofExcept _) fun _ =>
      .pure _
  | moveFromT2 src => exact .bind (.instruction _) fun _ => .ofExcept _
  | load access => exact selectLoad_moves access action
  | store access value => exact selectStore_moves access value action
  | memory spec => exact .throw _
  | ret => exact .instruction _
  | call target base =>
    exact .bind (.expect _ _ _) fun _ => .bind (.instruction _) fun _ =>
      .bind (.ofExcept _) fun _ => .bind (.ofExcept _) fun _ => .bind (.ofExcept _) fun _ =>
        .pure _
  | csrRead csr direct =>
    exact .bind .environment fun _ =>
      .ite (.pure _) (.bind (.instruction _) fun _ => .ofExcept _)
  | csrWrite w => exact csrWriteSelect_moves w action
  | compare relation lhs rhs pass =>
    exact .bind (.expect _ _ _) fun _ => .bind (.instruction _) fun _ =>
      .bind (.ofExcept _) fun _ => .bind (.ofExcept _) fun _ => .ofExcept _
  | jumpToFail address =>
    exact .bind (.expect _ _ _) fun _ => .bind (.instruction _) fun _ => .ofExcept _
  | readPte target => exact .bind .environment fun _ => .pure _
  | writePte target => exact .bind .environment fun _ => .pure _
  | modifyPte page level recursive => exact .throw _
  | system name => exact .instruction _
  | label name pointer => exact .pure _
  | comment text => exact .pure _

theorem select_moves (a : Action) : Moves R a.select := by
  cases a with
  | simple id expanded op => exact .bind (opSelect_moves id _ op) fun _ => .pure _
  | block id expanded owner code =>
    refine .bind ?_ fun _ => .pure _
    cases owner with
    | codePage spec => exact .pure _
    | assertException cause fault resume =>
      unfold Block.select
      dsimp only
      split
      · exact .pure _
      · exact .throw _

theorem selectAll_moves (actions : List Action) : Moves R (Action.selectAll actions) := by
  induction actions with
  | nil => exact .pure _
  | cons a rest ih => exact .bind (select_moves a) fun _ => .bind ih fun _ => .pure _

end Selection

section Legal

theorem randomValue_moves (id : Id) : Moves R (Lower.randomValue id) :=
  .bind (.instruction _) fun _ => .bind (.draw _) fun _ => .bind (.ofExcept _) fun _ =>
    .bind (.ofExcept _) fun _ => .pure _

theorem materialize_moves (seen : Seen) (ids : List Id) : Moves R (seen.materialize ids) := by
  induction ids generalizing seen with
  | nil => exact .pure _
  | cons id rest ih =>
    exact .ite (ih seen) (.bind (randomValue_moves id) fun _ => .bind (ih _) fun _ => .pure _)

theorem resolve_moves (seen : Seen) (code : List Instruction) : Moves R (seen.resolve code) := by
  induction code generalizing seen with
  | nil => exact .pure _
  | cons i rest ih =>
    exact .bind (.ofExcept _) fun _ => .bind (materialize_moves _ _) fun _ => .bind (ih _) fun _ =>
      .pure _

theorem cast_moves (source target : RegisterFile) (id consumer : Id) :
    Moves R (Produced.cast source target id consumer) := by
  unfold Produced.cast
  refine .bind .read fun context => ?_
  dsimp only
  split
  · exact .throw _
  · exact .bind .freshValue fun _ => .bind (.chooseFrom _ _) fun _ => .bind (.ofExcept _) fun _ =>
      .bind (.ofExcept _) fun _ => .pure _

theorem castSources_moves (consumer : Id) (produced : Produced) (ops : List Operand) :
    Moves R (Produced.castSources consumer produced ops) := by
  induction ops generalizing produced with
  | nil => exact .pure _
  | cons op rest ih =>
    unfold Produced.castSources
    split
    · exact .bind (ih _) fun _ => .pure _
    · exact .bind (cast_moves _ _ _ _) fun _ => .bind (ih _) fun _ => .pure _

theorem castAll_moves (produced : Produced) (code : List Instruction) :
    Moves R (Produced.castAll produced code) := by
  induction code generalizing produced with
  | nil => exact .pure _
  | cons i rest ih =>
    exact .bind (castSources_moves _ _ _) fun _ => .bind (ih _) fun _ => .pure _

theorem legalize_moves (code : List Instruction) : Moves R (legalize code) :=
  .bind (.bind (resolve_moves _ _) fun _ => .pure _) fun _ =>
    .bind (castAll_moves _ _) fun _ => .pure _

theorem ofCode_moves (pool : RegisterPool) (code : List Instruction) :
    Moves R (Allocation.ofCode pool code) :=
  .bind .get fun _ => .bind (.ofExcept _) fun _ => .draw _

theorem allocate_moves (pool : RegisterPool) (code : List Instruction) :
    Moves R (allocate pool code) :=
  .bind (ofCode_moves pool code) fun _ => .bind .read fun _ => .ofExcept _

end Legal
end Lower
end PlanLowering
