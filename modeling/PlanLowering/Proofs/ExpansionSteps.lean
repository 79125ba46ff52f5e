import PlanLowering.Proofs.Outcome

/-!
# Steps of expansion

What each step of expansion did where it succeeded. Results about expanded actions follow the
steps by these lemmas and by no definition of a step.
-/

namespace PlanLowering

variable {context : Context} {s t : State} {before : List Action} {id : Id} {e : Expansion}

namespace Access

variable {flags : PageFlags} {a a' : Access} {address : List Action} {label : Option Id}

/-- Anchoring settles the memory. There is a label to start from unless a value holds the
address. -/
theorem anchor_ok (h : a.anchor flags context s = .ok (a', label) t) :
    a' = { a with memory := a'.memory } ∧ (label = none → a' = a ∧ ∃ id, a.memory = some (.value id)) ∧
      t.ids.values = s.ids.values := by
  unfold anchor at h
  cases hmemory : a.memory with
  | none =>
    simp only [hmemory, reserveNew, Lower.freshDataPage, Lower.bind_ok, Lower.pure_ok,
      Lower.draw_ok, Lower.fresh_ok, Lower.reserve_ok, Prod.mk.injEq] at h
    obtain ⟨_, _, ⟨_, _, ⟨_, _, rfl⟩, _, _, ⟨_, rfl⟩, _, _, ⟨_, rfl⟩, _, rfl⟩, ⟨rfl, rfl⟩, rfl⟩ := h
    exact ⟨rfl, by simp, rfl⟩
  | some address =>
    cases address with
    | page id =>
      simp only [hmemory, Lower.bind_ok, Lower.get_ok] at h
      obtain ⟨_, _, ⟨rfl, rfl⟩, h⟩ := h
      split at h
      · simp only [Lower.pure_ok, Prod.mk.injEq] at h
        obtain ⟨⟨rfl, rfl⟩, rfl⟩ := h
        exact ⟨rfl, by simp, rfl⟩
      · simp at h
    | symbol name =>
      simp only [hmemory, Lower.pure_ok, Prod.mk.injEq] at h
      obtain ⟨⟨rfl, rfl⟩, rfl⟩ := h
      exact ⟨rfl, by simp, rfl⟩
    | value id =>
      simp only [hmemory, Lower.pure_ok, Prod.mk.injEq] at h
      obtain ⟨⟨rfl, rfl⟩, rfl⟩ := h
      exact ⟨rfl, fun _ => ⟨rfl, id, rfl⟩, rfl⟩

/-- An offset that fits stays, and any other is loaded and added to the base. -/
theorem widen_ok (h : a.widen address context s = .ok (before, a') t) :
    (offsetFits a.offset ∧ before = address ∧ a' = a ∧ t = s) ∨
    ∃ base offset sum u, ¬ offsetFits a.offset ∧ a.base = some base ∧
      Lower.freshValue context s = .ok offset u ∧ Lower.freshValue context u = .ok sum t ∧
      before = address ++ [Action.li offset (.value a.offset),
        Action.new sum (.arithmetic (.binary "add" base offset))] ∧
      a' = { a with base := some sum, offset := 0 } := by
  unfold widen at h
  by_cases hfits : offsetFits a.offset
  · rw [if_pos hfits, Lower.pure_ok, Prod.mk.injEq] at h
    obtain ⟨⟨rfl, rfl⟩, rfl⟩ := h
    exact .inl ⟨hfits, rfl, rfl, rfl⟩
  · rw [if_neg hfits] at h
    cases hbase : a.base with
    | none => simp [hbase] at h
    | some base =>
      simp only [hbase, Lower.bind_ok, Lower.pure_ok, Prod.mk.injEq] at h
      obtain ⟨offset, u, hoffset, sum, _, hsum, ⟨rfl, rfl⟩, rfl⟩ := h
      exact .inr ⟨base, offset, sum, u, hfits, rfl, hoffset, hsum, rfl, rfl⟩

/-- A label is loaded into a new base before the access is widened. -/
theorem expand_ok (h : a.expand flags context s = .ok (before, a') t) :
    ∃ anchored label u, a.anchor flags context s = .ok (anchored, label) u ∧
      (label = none ∧ anchored.widen [] context u = .ok (before, a') t ∨
        ∃ name base v, label = some name ∧ Lower.freshValue context u = .ok base v ∧
          widen [Action.li base (.symbol name)] { anchored with base := some base } context v =
            .ok (before, a') t) := by
  simp only [expand, Lower.bind_ok, Prod.exists] at h
  obtain ⟨anchored, label, u, hanchor, h⟩ := h
  refine ⟨anchored, label, u, hanchor, ?_⟩
  cases label with
  | none => exact .inl ⟨rfl, h⟩
  | some name =>
    obtain ⟨base, v, hbase, h⟩ := Lower.bind_ok.1 h
    exact .inr ⟨name, base, v, rfl, hbase, h⟩

end Access

inductive Op.FillsT2 (src : Option Id) : Op → Prop where
  | move {given} (hsrc : src = some given) : FillsT2 src (.moveToT2 given)
  | load {v} : FillsT2 src (.liToT2 v)

/-- What is written is either where the write reads it, or a helper brings it there. -/
theorem CsrWrite.expand_ok {w w' : CsrWrite} (h : w.expand context s = .ok (before, w') t) :
    ∃ value random,
      (context.environment.needsRuntime w.csr = false ∧ before = [] ∧ w' = { w with value } ∧
        t = { s with random }) ∨
      ∃ op load, (context.environment.needsRuntime w.csr ∧ op.FillsT2 w.src ∨
          context.environment.needsRuntime w.csr = false ∧ ∃ v, op = .li v) ∧
        Lower.freshValue context { s with random } = .ok load t ∧ before = [Action.new load op] ∧
        w' = { w with value, src := some load } := by
  simp only [expand, Lower.bind_ok, Lower.environment_ok] at h
  obtain ⟨_, _, ⟨rfl, rfl⟩, h⟩ := h
  cases hsrc : w.src with
  | some src =>
    simp only [hsrc] at h
    refine ⟨w.value, s.random, ?_⟩
    split at h
    · next hruntime =>
      simp only [Lower.bind_ok, Lower.pure_ok, Prod.mk.injEq] at h
      obtain ⟨load, _, hload, ⟨rfl, rfl⟩, rfl⟩ := h
      exact .inr ⟨_, load, .inl ⟨hruntime, .move rfl⟩, hload, rfl, rfl⟩
    · next hdirect =>
      simp only [Lower.pure_ok, Prod.mk.injEq] at h
      obtain ⟨⟨rfl, rfl⟩, rfl⟩ := h
      exact .inl ⟨by simpa using hdirect, rfl, by rw [← hsrc], rfl⟩
  | none =>
    rcases hvalue : w.value with _ | v
    all_goals
      simp only [hsrc, hvalue] at h
      obtain ⟨value, u, hdraw, h⟩ := Lower.bind_ok.1 h
      obtain ⟨random, rfl⟩ : ∃ random, { s with random } = u := by
        first
        | obtain ⟨random, _, rfl⟩ := Lower.draw_ok.1 hdraw
          exact ⟨random, rfl⟩
        | exact ⟨s.random, (Lower.pure_ok.1 hdraw).2⟩
      refine ⟨some value, random, ?_⟩
      split at h
      · next hsmall =>
        simp only [Lower.pure_ok, Prod.mk.injEq] at h
        obtain ⟨⟨rfl, rfl⟩, rfl⟩ := h
        exact .inl ⟨by simpa using hsmall.2.2, rfl, rfl, rfl⟩
      · simp only [Lower.bind_ok, Lower.pure_ok, Prod.mk.injEq] at h
        obtain ⟨load, _, hload, ⟨rfl, rfl⟩, rfl⟩ := h
        refine .inr ⟨_, load, ?_, hload, rfl, rfl⟩
        cases hruntime : context.environment.needsRuntime w.csr with
        | true => exact .inl ⟨rfl, .load⟩
        | false => exact .inr ⟨rfl, _, rfl⟩

theorem PteTarget.expandWrite_ok {target target' : PteTarget}
    (h : target.expandWrite context s = .ok (before, target') t) :
    ∃ op load random, op.FillsT2 target.src ∧
      Lower.freshValue context { s with random } = .ok load t ∧ before = [Action.new load op] ∧
      target' = { target with src := some load } := by
  unfold expandWrite at h
  cases hsrc : target.src with
  | some src =>
    simp only [hsrc, Lower.bind_ok, Lower.pure_ok, Prod.mk.injEq] at h
    obtain ⟨_, _, ⟨rfl, rfl⟩, load, _, hload, ⟨rfl, rfl⟩, rfl⟩ := h
    exact ⟨_, load, s.random, .move rfl, hload, rfl, rfl⟩
  | none =>
    simp only [hsrc, Lower.bind_ok, Lower.draw_ok, Lower.pure_ok, Prod.mk.injEq] at h
    obtain ⟨_, _, ⟨random, _, rfl⟩, _, _, ⟨rfl, rfl⟩, load, _, hload, ⟨rfl, rfl⟩, rfl⟩ := h
    exact ⟨_, load, random, .load, hload, rfl, rfl⟩

namespace Op

def standsAlone (env : Environment) : Op → Bool
  | .load _ | .store .. | .call .. | .csrWrite _ | .compare .. | .jumpToFail _ => false
  | .readPte _ | .writePte _ | .modifyPte .. => false
  | .csrRead csr _ => !env.needsRuntime csr
  | _ => true

def fetched (id : Id) (op : Op) (read : Id) : Expansion :=
  .spliced [.simple read true op, Action.new id (.moveFromT2 Register.t2.name)]

def Counts (overflow : Overflow) : Op → Prop
  | .modifyPte _ level recursive => recursive = false → level = 255 → overflow = .wraps
  | _ => True

/-- The steps that the expansion of an action took. -/
inductive ExpandsBy (context : Context) (id : Id) (s : State) : Op → Expansion → State → Prop where
  | alone {op} (halone : op.standsAlone context.environment) :
      ExpandsBy context id s op (behind id op []) s
  | load {access access' before t}
      (haccess : access.expand .read context s = .ok (before, access') t) :
      ExpandsBy context id s (.load access) (behind id (.load access') before) t
  | store {access access' value before t}
      (haccess : access.expand .readWrite context s = .ok (before, access') t) :
      ExpandsBy context id s (.store access value) (behind id (.store access' value) before) t
  | call {target old base t} (hbase : Lower.freshValue context s = .ok base t) :
      ExpandsBy context id s (.call target old)
        (behind id (.call target (some base)) [Action.li base (.symbol target)]) t
  | csrRead {csr direct read t} (hruntime : context.environment.needsRuntime csr)
      (hread : Lower.freshValue context s = .ok read t) :
      ExpandsBy context id s (.csrRead csr direct) (fetched id (.csrRead csr direct) read) t
  | csrWrite {w w' before t} (hwrite : w.expand context s = .ok (before, w') t) :
      ExpandsBy context id s (.csrWrite w) (behind id (.csrWrite w') before) t
  | compare {relation lhs rhs old pass fail label u v t}
      (hpass : Lower.freshNamed "pass_label" context s = .ok pass u)
      (hfail : Lower.freshValue context u = .ok fail v)
      (hlabel : Lower.freshLabel context v = .ok label t) :
      ExpandsBy context id s (.compare relation lhs rhs old)
        (.spliced [.simple id true (.compare relation lhs rhs (some pass)),
          Action.new fail (.jumpToFail none), Action.new label (.label pass false)]) t
  | jumpToFail {old address target u t} (haddress : Lower.freshValue context s = .ok address u)
      (htarget : Lower.freshValue context u = .ok target t) :
      ExpandsBy context id s (.jumpToFail old) (behind id (.jumpToFail (some target))
        [Action.li address (.symbol context.options.failedSymbol),
          Action.new target (.load { Access.to (some (.value address)) 0 with
            op := some context.environment.xlen.wordLoad })]) t
  | readPte {target read t} (hread : Lower.freshValue context s = .ok read t) :
      ExpandsBy context id s (.readPte target) (fetched id (.readPte target) read) t
  | writePte {target target' before t}
      (hwrite : target.expandWrite context s = .ok (before, target') t) :
      ExpandsBy context id s (.writePte target) (behind id (.writePte target') before) t
  | modifyPte {page level recursive pointer entry write u t}
      (hcounts : (modifyPte page level recursive).Counts context.overflow)
      (hentry : Lower.freshValue context s = .ok entry u)
      (hwrite : Lower.freshValue context u = .ok write t) :
      ExpandsBy context id s (.modifyPte page level recursive)
        (.spliced [Action.li entry (.symbol pointer),
          Action.new write (.store { Access.to (some (.symbol s!"{page}__pt_level{level}")) 0 with
            op := some context.environment.xlen.wordStore } (some entry))]) t

variable {op : Op}

theorem readThroughT2_ok (h : readThroughT2 id op context s = .ok e t) :
    ∃ read, Lower.freshValue context s = .ok read t ∧ e = fetched id op read := by
  simp only [readThroughT2, Lower.bind_ok, Lower.pure_ok] at h
  obtain ⟨read, _, hread, rfl, rfl⟩ := h
  exact ⟨read, hread, rfl⟩

theorem expand_ok (h : op.expand id context s = .ok e t) : op.ExpandsBy context id s e t := by
  cases op with
  | load access =>
    simp only [expand, Lower.bind_ok, Lower.pure_ok, Prod.exists] at h
    obtain ⟨before, access', _, haccess, rfl, rfl⟩ := h
    exact .load haccess
  | store access value =>
    simp only [expand, Lower.bind_ok, Lower.pure_ok, Prod.exists] at h
    obtain ⟨before, access', _, haccess, rfl, rfl⟩ := h
    exact .store haccess
  | call target old =>
    simp only [expand, Lower.bind_ok, Lower.pure_ok] at h
    obtain ⟨base, _, hbase, rfl, rfl⟩ := h
    exact .call hbase
  | csrRead csr direct =>
    simp only [expand, Lower.bind_ok, Lower.environment_ok] at h
    obtain ⟨_, _, ⟨rfl, rfl⟩, h⟩ := h
    split at h
    · next hruntime =>
      obtain ⟨read, hread, rfl⟩ := readThroughT2_ok h
      exact .csrRead hruntime hread
    · next hdirect =>
      obtain ⟨rfl, rfl⟩ := Lower.pure_ok.1 h
      exact .alone (by simpa [standsAlone] using hdirect)
  | csrWrite w =>
    simp only [expand, Lower.bind_ok, Lower.pure_ok, Prod.exists] at h
    obtain ⟨before, w', _, hwrite, rfl, rfl⟩ := h
    exact .csrWrite hwrite
  | compare relation lhs rhs old =>
    simp only [expand, expandCompare, Lower.bind_ok, Lower.pure_ok] at h
    obtain ⟨pass, _, hpass, fail, _, hfail, label, _, hlabel, rfl, rfl⟩ := h
    exact .compare hpass hfail hlabel
  | jumpToFail old =>
    simp only [expand, expandJumpToFail, Lower.bind_ok, Lower.options_ok, Lower.environment_ok,
      Lower.pure_ok] at h
    obtain ⟨_, _, ⟨rfl, rfl⟩, _, _, ⟨rfl, rfl⟩, address, _, haddress, target, _, htarget, rfl, rfl⟩ := h
    exact .jumpToFail haddress htarget
  | readPte target =>
    obtain ⟨read, hread, rfl⟩ := readThroughT2_ok h
    exact .readPte hread
  | writePte target =>
    simp only [expand, Lower.bind_ok, Lower.pure_ok, Prod.exists] at h
    obtain ⟨before, target', _, hwrite, rfl, rfl⟩ := h
    exact .writePte hwrite
  | modifyPte page level recursive =>
    simp only [expand, expandModifyPte, Lower.bind_ok, Lower.environment_ok, Lower.pure_ok] at h
    obtain ⟨target, _, htarget, _, _, ⟨rfl, rfl⟩, entry, _, hentry, write, _, hwrite, rfl, rfl⟩ := h
    obtain ⟨hcounts, _, rfl⟩ := Lower.targetLevel_ok.1 htarget
    exact .modifyPte hcounts hentry hwrite
  | _ =>
    obtain ⟨rfl, rfl⟩ := Lower.pure_ok.1 h
    exact .alone rfl

theorem behind_actions (id : Id) (op : Op) (before : List Action) :
    (behind id op before).actions = before ++ [.simple id true op] := by
  cases before <;> rfl

end Op

namespace Action

variable {a : Action} {code body : List Action}

theorem expand_expanded (ha : a.isExpanded) : a.expand context s = .ok (.alone a) s := by
  cases a with
  | simple id expanded op =>
    cases ha
    rfl
  | block id expanded owner code =>
    cases ha
    rfl

theorem expand_of_expanded (ha : a.isExpanded) (h : a.expand context s = .ok e t) :
    e = .alone a ∧ t = s := by
  rw [expand_expanded ha] at h
  cases h
  exact ⟨rfl, rfl⟩

theorem codePage_ok {spec : PageSpec}
    (h : (Action.block id false (.codePage spec) code).expand context s = .ok e t) :
    ∃ ret, Lower.freshValue context s = .ok ret t ∧
      e = .spliced (.block id true (.codePage spec) [] :: code ++ [new ret .ret]) := by
  simp only [expand, Lower.bind_ok, Lower.pure_ok] at h
  obtain ⟨ret, _, hret, rfl, rfl⟩ := h
  exact ⟨ret, hret, rfl⟩

/-- The code of an exception assertion is expanded once, and stands between the directive and the
label to come back to. -/
theorem assertException_ok {cause : ExceptionCause} {old old' : Option String}
    (h : (Action.block id false (.assertException cause old old') code).expand context s = .ok e t) :
    code ≠ [] ∧ ∃ body fault resume label fail label' s₁ s₂ s₃ s₄ s₅,
      expandEach code context s = .ok body s₁ ∧
      Lower.freshNamed "fault_label" context s₁ = .ok fault s₂ ∧
      Lower.freshNamed "excp_return_label" context s₂ = .ok resume s₃ ∧
      Lower.freshLabel context s₃ = .ok label s₄ ∧ Lower.freshValue context s₄ = .ok fail s₅ ∧
      Lower.freshLabel context s₅ = .ok label' t ∧
      e = .spliced (.block id true (.assertException cause (some fault) (some resume)) [] ::
        insertBeforeLast (new label (.label fault true)) body ++
          [new fail (.jumpToFail none), new label' (.label resume false)]) := by
  rw [expand] at h
  by_cases hempty : code.isEmpty
  · rw [if_pos hempty] at h
    obtain ⟨_, _, hthrow, _⟩ := Lower.bind_ok.1 h
    exact (Lower.throw_ok.1 hthrow).elim
  rw [if_neg hempty] at h
  simp only [Lower.bind_ok, Lower.pure_ok] at h
  obtain ⟨body, s₁, hbody, fault, s₂, hfault, resume, s₃, hresume, label, s₄, hlabel, fail, s₅, hfail,
    label', _, hlabel', rfl, rfl⟩ := h
  exact ⟨by simpa using hempty, body, fault, resume, label, fail, label', s₁, s₂, s₃, s₄, s₅, hbody,
    hfault, hresume, hlabel, hfail, hlabel', rfl⟩

@[simp] theorem expandEach_nil_ok :
    expandEach [] context s = .ok body t ↔ [] = body ∧ s = t := by
  rw [expandEach, Lower.pure_ok]

theorem expandEach_cons_ok {rest : List Action} (h : expandEach (a :: rest) context s = .ok body t) :
    ∃ e u more, a.expand context s = .ok e u ∧ expandEach rest context u = .ok more t ∧
      body = e.actions ++ more := by
  simp only [expandEach, Lower.bind_ok, Lower.pure_ok] at h
  obtain ⟨e, u, ha, more, _, hmore, rfl, rfl⟩ := h
  exact ⟨e, u, more, ha, hmore, rfl⟩

end Action
end PlanLowering
