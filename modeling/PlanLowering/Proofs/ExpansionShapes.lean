import PlanLowering.Proofs.IdSupply
import PlanLowering.Proofs.RuntimeAccess

/-!
# Shapes of expansions

One expansion has one of few shapes. As a rule the action stays last, behind what prepares its
operands; some are followed by what fetches their result or by where to go on. All ids that an
expansion gives are new.
-/

namespace PlanLowering

def State.KeepsIds (s t : State) : Prop := ∀ id, s.ids.Given id → t.ids.Given id

instance : Lower.DataFrame State.KeepsIds where
  refl _ _ h := h
  trans _ _ _ hst htu id h := htu id (hst id h)
  random _ _ _ h := h
  data _ _ _ _ _ h := h
  ids s next hnext id h := by
    cases hnext with
    | value => exact h.next .value
    | dataPage => exact h.next (.page .data)
    | codePage => exact h.next (.page .code)
    | label => exact h.next .label
    | named stem => exact h.next (.named stem)

namespace Op

def entry? : Op → Option Id
  | .readPte target => some target.memory
  | .writePte target => some target.memory
  | _ => none

def mark? : Op → Option String
  | .label name _ => some name
  | _ => none

def goal? : Op → Option String
  | .compare _ _ _ pass => pass
  | _ => none

def Helps : Op → Prop
  | .li _ => True
  | .liToT2 _ => True
  | .moveToT2 _ => True
  | .arithmetic _ => True
  | .load _ => True
  | _ => False

/-- Nothing comes behind the action when it is expanded. -/
def staysLast (env : Environment) : Op → Bool
  | .csrRead csr _ => !env.needsRuntime csr
  | .readPte _ => false
  | .compare .. => false
  | .modifyPte .. => false
  | _ => true

structure Prepared (op op' : Op) : Prop where
  title : op'.title = op.title
  entry : op'.entry? = op.entry?
  mark : op'.mark? = op.mark?
  goal : op'.goal? = op.goal?

theorem Prepared.refl (op : Op) : op.Prepared op := ⟨rfl, rfl, rfl, rfl⟩

/-- What one expansion makes of an action, and the counters before and after it. -/
inductive Expands (env : Environment) (ids ids' : FreshIds) (id : Id) : Op → List Action → Prop where
  | last {op op' before} (hlast : op.staysLast env) (hprepared : op.Prepared op')
      (hbefore : ∀ b ∈ before, ∃ i helper, b = .new i helper ∧ helper.Helps)
      (hnew : ids.Assigns ids' (before.map Action.id)) :
      Expands env ids ids' id op (before ++ [.simple id true op'])
  | fetched {op read} (hleaves : (op.form env).leavesT2) (hlast : op.staysLast env = false)
      (hnew : ids.Assigns ids' [read]) :
      Expands env ids ids' id op
        [.simple read true op, .new id (.moveFromT2 Register.t2.name)]
  | branched {relation lhs rhs old pass fail label} (hnew : ids.Adds ids' [pass, fail, label])
      (hactions : ids.Assigns ids' [fail, label]) :
      Expands env ids ids' id (.compare relation lhs rhs old)
        [.simple id true (.compare relation lhs rhs (some pass)), .new fail (.jumpToFail none),
          .new label (.label pass false)]
  | stored {page level recursive entry value write access table}
      (haccess : access.memory = some (.symbol table)) (hnew : ids.Assigns ids' [entry, write]) :
      Expands env ids ids' id (.modifyPte page level recursive)
        [.li entry value, .new write (.store access (some entry))]

end Op

variable {context : Context} {s t u : State} {before : List Action} {id : Id} {op : Op}
  {e : Expansion}

section Shape

theorem Lower.fresh_adds (r : IdRequest) (h : Lower.fresh r.next context s = .ok id t) :
    s.ids.Adds t.ids [id] := by
  obtain ⟨rfl, rfl⟩ := Lower.fresh_ok.1 h
  exact .next r s.ids

theorem Lower.fresh_assigns (r : IdRequest) (hr : r.isForAction)
    (h : Lower.fresh r.next context s = .ok id t) : s.ids.Assigns t.ids [id] := by
  obtain ⟨rfl, rfl⟩ := Lower.fresh_ok.1 h
  exact .next r hr s.ids

theorem Access.widen_assigns {ids : FreshIds} {address : List Action} {access access' : Access}
    (haddress : ids.Assigns s.ids (address.map Action.id))
    (h : access.widen address context s = .ok (before, access') t) :
    ids.Assigns t.ids (before.map Action.id) := by
  obtain ⟨_, rfl, _, rfl⟩ | ⟨_, _, _, _, _, _, hoffset, hsum, rfl, _⟩ := widen_ok h
  · exact haddress
  · have hadded :=
      (Lower.fresh_assigns .value rfl hoffset).append (Lower.fresh_assigns .value rfl hsum)
    rw [List.map_append]
    exact haddress.append hadded

theorem Access.expand_helps {flags : PageFlags} {access access' : Access}
    (h : access.expand flags context s = .ok (before, access') t) :
    (∀ b ∈ before, ∃ i helper, b = .new i helper ∧ helper.Helps) ∧
      s.ids.Assigns t.ids (before.map Action.id) := by
  refine ⟨expand_before (fun i v => ⟨i, .li v, rfl, trivial⟩)
    (fun i a => ⟨i, .arithmetic a, rfl, trivial⟩) h, ?_⟩
  obtain ⟨_, _, next, hanchor, h⟩ := expand_ok h
  have hkeeps : s.KeepsIds next :=
    Lower.anchor_moves (R := State.KeepsIds) flags access _ _ _ _ hanchor
  rcases h with ⟨_, h⟩ | ⟨name, base, _, _, hbase, h⟩
  · exact widen_assigns (.nil hkeeps) h
  · have hadded : s.ids.Assigns _ ([Action.li base (.symbol name)].map Action.id) :=
      (FreshIds.Assigns.nil hkeeps).append (Lower.fresh_assigns .value rfl hbase)
    exact widen_assigns hadded h

theorem Op.Helps.assigns {helper : Op} (h : helper.Helps)
    (hload : Lower.freshValue context u = .ok id t) (hids : u.ids = s.ids) :
    (∀ b ∈ [Action.new id helper], ∃ i helper, b = .new i helper ∧ helper.Helps) ∧
      s.ids.Assigns t.ids ([Action.new id helper].map Action.id) :=
  ⟨List.forall_mem_singleton.2 ⟨_, _, rfl, h⟩, hids ▸ Lower.fresh_assigns .value rfl hload⟩

theorem Op.FillsT2.helps {src : Option Id} (h : op.FillsT2 src) : op.Helps := by
  cases h <;> trivial

theorem CsrWrite.expand_helps {w w' : CsrWrite} (h : w.expand context s = .ok (before, w') t) :
    (∀ b ∈ before, ∃ i helper, b = .new i helper ∧ helper.Helps) ∧
      s.ids.Assigns t.ids (before.map Action.id) := by
  obtain ⟨_, _, ⟨_, rfl, _, rfl⟩ | ⟨op, _, hop, hload, rfl, _⟩⟩ := expand_ok h
  · exact ⟨by simp, .refl _⟩
  · have hhelps : op.Helps := by
      rcases hop with ⟨_, hfills⟩ | ⟨_, v, rfl⟩
      · exact hfills.helps
      · trivial
    exact hhelps.assigns hload rfl

theorem PteTarget.expandWrite_helps {target target' : PteTarget}
    (h : target.expandWrite context s = .ok (before, target') t) :
    target'.memory = target.memory ∧
      (∀ b ∈ before, ∃ i helper, b = .new i helper ∧ helper.Helps) ∧
      s.ids.Assigns t.ids (before.map Action.id) := by
  obtain ⟨_, _, _, hfills, hload, rfl, rfl⟩ := expandWrite_ok h
  exact ⟨rfl, hfills.helps.assigns hload rfl⟩

theorem Op.expands_behind {op' : Op} {ids ids' : FreshIds} {env : Environment}
    (hlast : op.staysLast env) (hprepared : op.Prepared op')
    (hbefore : (∀ b ∈ before, ∃ i helper, b = .new i helper ∧ helper.Helps) ∧
      ids.Assigns ids' (before.map Action.id)) :
    op.Expands env ids ids' id (behind id op' before).actions := by
  rw [behind_actions]
  exact .last hlast hprepared hbefore.1 hbefore.2

theorem Op.staysLast_of_standsAlone {env : Environment} (h : op.standsAlone env) :
    op.staysLast env := by
  cases op <;> first | exact h | rfl

theorem Op.expand_expands (h : op.expand id context s = .ok e t) :
    op.Expands context.environment s.ids t.ids id e.actions := by
  cases expand_ok h with
  | alone halone =>
    exact expands_behind (staysLast_of_standsAlone halone) (.refl _) ⟨by simp, .refl _⟩
  | load haccess | store haccess =>
    exact expands_behind rfl ⟨rfl, rfl, rfl, rfl⟩ (Access.expand_helps haccess)
  | @call target _ _ _ hbase =>
    have hhelps : (Op.li (.symbol target)).Helps := trivial
    exact expands_behind rfl ⟨rfl, rfl, rfl, rfl⟩ (hhelps.assigns hbase rfl)
  | csrRead hruntime hread =>
    exact .fetched (by rw [form, if_pos hruntime]; rfl) (by simp [staysLast, hruntime])
      (Lower.fresh_assigns .value rfl hread)
  | readPte hread => exact .fetched rfl rfl (Lower.fresh_assigns .value rfl hread)
  | csrWrite hwrite =>
    exact expands_behind rfl ⟨rfl, rfl, rfl, rfl⟩ (CsrWrite.expand_helps hwrite)
  | writePte hwrite =>
    obtain ⟨hmemory, hbefore⟩ := PteTarget.expandWrite_helps hwrite
    exact expands_behind rfl ⟨rfl, congrArg some hmemory, rfl, rfl⟩ hbefore
  | @compare _ _ _ _ _ _ named _ _ _ hpass hfail hlabel =>
    have hgoes :=
      (Lower.fresh_assigns .value rfl hfail).append (Lower.fresh_assigns .label rfl hlabel)
    have hnamed := Lower.fresh_adds (.named "pass_label") hpass
    exact .branched (hnamed.append hgoes.toAdds) ((FreshIds.Assigns.nil hnamed.keeps).append hgoes)
  | jumpToFail haddress htarget =>
    refine expands_behind rfl ⟨rfl, rfl, rfl, rfl⟩ ⟨?_,
      (Lower.fresh_assigns .value rfl haddress).append (Lower.fresh_assigns .value rfl htarget)⟩
    simp only [List.forall_mem_cons]
    exact ⟨⟨_, _, rfl, trivial⟩, ⟨_, _, rfl, trivial⟩, by simp⟩
  | modifyPte _ hentry hwrite =>
    exact .stored rfl
      ((Lower.fresh_assigns .value rfl hentry).append (Lower.fresh_assigns .value rfl hwrite))

end Shape

theorem insertBeforeLast_perm {α : Type} (x : α) (xs : List α) :
    (insertBeforeLast x xs).Perm (x :: xs) := by
  induction xs with
  | nil => rfl
  | cons y rest ih =>
    cases rest with
    | nil => rfl
    | cons z more => exact (ih.cons y).trans (.swap _ _ _)

namespace Action

theorem expand_codePage {spec : PageSpec} {code : List Action}
    (h : (Action.block id false (.codePage spec) code).expand context s = .ok e t) :
    ∃ ret, e.actions = .block id true (.codePage spec) [] :: code ++ [new ret .ret] ∧
      s.ids.Assigns t.ids [ret] := by
  obtain ⟨ret, hret, rfl⟩ := codePage_ok h
  exact ⟨ret, rfl, Lower.fresh_assigns .value rfl hret⟩

theorem expand_assertException {cause : ExceptionCause} {old old' : Option String}
    {code : List Action}
    (h : (Action.block id false (.assertException cause old old') code).expand context s = .ok e u) :
    code ≠ [] ∧ ∃ body t, expandEach code context s = .ok body t ∧
      ∃ fault resume label fail label', t.ids.Adds u.ids [fault, resume, label, fail, label'] ∧
        t.ids.Assigns u.ids [label, fail, label'] ∧
        e.actions = .block id true (.assertException cause (some fault) (some resume)) [] ::
          insertBeforeLast (new label (.label fault true)) body ++
            [new fail (.jumpToFail none), new label' (.label resume false)] := by
  obtain ⟨hcode, body, fault, resume, label, fail, label', t, _, _, _, _, hbody, hfault, hresume,
    hlabel,
    hfail, hlabel', rfl⟩ := assertException_ok h
  have hnames := (Lower.fresh_adds (.named "fault_label") hfault).append
    (Lower.fresh_adds (.named "excp_return_label") hresume)
  have hids := ((Lower.fresh_assigns .label rfl hlabel).append
    (Lower.fresh_assigns .value rfl hfail)).append (Lower.fresh_assigns .label rfl hlabel')
  exact ⟨hcode, body, t, hbody, fault, resume, label, fail, label', hnames.append hids.toAdds,
    (FreshIds.Assigns.nil hnames.keeps).append hids, rfl⟩

end Action
end PlanLowering
