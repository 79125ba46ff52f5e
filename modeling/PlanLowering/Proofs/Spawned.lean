import PlanLowering.Proofs.StateFrame
import PlanLowering.Proofs.WorkedLists

/-!
# What expansion puts around an action

Helpers that load addresses, values and offsets, labels to come back to, and the action itself with
what the helpers prepared. Helpers have ids that were not given before and read only what the
action reads or what helpers before them load.
-/

namespace PlanLowering

def FreshIds.labelStems : List String := ["pass_label", "fault_label", "excp_return_label"]

def FreshIds.NamesLabel (name : String) : Prop :=
  ∃ stem ∈ labelStems, ∃ k : Nat, name = s!"{stem}_{k}"

open FreshIds (Numbers NamesLabel)

/-- Ids whose values an action reads, by itself or through its helpers. -/
def Op.reads : Op → List Id
  | .arithmetic a => a.src1.toList ++ a.src2.toList
  | .moveToT2 src => [src]
  | .load access => access.base.toList
  | .store access value => value.toList ++ access.base.toList
  | .call _ base => base.toList
  | .csrWrite w => w.src.toList
  | .compare _ lhs rhs _ => [lhs, rhs]
  | .jumpToFail address => address.toList
  | .writePte target => target.src.toList
  | _ => []

def Op.labels : Op → List String
  | .label name _ => [name]
  | .compare _ _ _ pass => pass.toList
  | _ => []

def Access.templates (a : Access) (catalog : Catalog) (category : Category) : List Template :=
  match a.op with
  | some opcode => (catalog.find? opcode).toList
  | none => catalog.templates.filter (·.category = category)

/-- Templates among which the instruction of an action is chosen, whatever its offset is. All other
actions take an opcode that selection names. -/
def Op.templates (catalog : Catalog) : Op → List Template
  | .arithmetic a => match a.op.bind catalog.find? with
    | some t => [t]
    | none => catalog.filter a.filter
  | .load access => access.templates catalog .load
  | .store access _ => access.templates catalog .store
  | .system opcode => (catalog.find? opcode).toList
  | _ => []

/-- What expansion leaves of an action: its choice of templates, and reads that it had before or
that helpers load. -/
structure Op.Keeps (op : Op) (low high : Nat) (op' : Op) : Prop where
  templates : ∀ catalog, op'.templates catalog = op.templates catalog
  reads : ∀ id ∈ op'.reads, id ∈ op.reads ∨ Numbers low high id
  labels : ∀ name ∈ op'.labels, name ∈ op.labels ∨ NamesLabel name

/-- An action in the expansion of another one. Values are numbered from `low` to `high`. -/
inductive Op.Spawns (id : Id) (op : Op) (low high : Nat) : Action → Prop where
  | itself {expanded op'} (h : op.Keeps low high op') : Spawns id op low high (.simple id expanded op')
  | helper {k : Nat} {expanded op'} (hlow : low ≤ k) (hhigh : k < high)
      (hreads : ∀ id ∈ op'.reads, id ∈ op.reads ∨ Numbers low k id) (hlabels : op'.labels = []) :
      Spawns id op low high (.simple s!"r{k}" expanded op')
  | label {k : Nat} {name} (h : NamesLabel name) :
      Spawns id op low high (.simple s!"L{k}" false (.label name false))

variable {context : Context} {state state' : State} {before : List Action} {e : Expansion}
variable {id : Id} {op op' : Op} {low high high' : Nat}

theorem Op.Keeps.refl (op : Op) (low high : Nat) : op.Keeps low high op :=
  ⟨fun _ => rfl, fun _ h => .inl h, fun _ h => .inl h⟩

theorem Op.Spawns.grow {b : Action} (h : op.Spawns id low high b) (hle : high ≤ high') :
    op.Spawns id low high' b := by
  cases h with
  | itself h =>
    have hreads : ∀ i ∈ _, i ∈ op.reads ∨ Numbers low high' i :=
      fun i hi => (h.reads i hi).imp_right fun hnew => hnew.mono (Nat.le_refl low) hle
    exact .itself ⟨h.templates, hreads, h.labels⟩
  | helper hlow hhigh hreads hlabels => exact .helper hlow (by omega) hreads hlabels
  | label h => exact .label h

section Expand

theorem Op.spawns_li {v : Immediate} {k : Nat} (hlow : low ≤ k) (hhigh : k < high) :
    op.Spawns id low high (Action.li s!"r{k}" v) :=
  .helper hlow hhigh (by simp [Op.reads]) rfl

theorem Op.spawns_new {k : Nat} (hlow : low ≤ k) (hhigh : k < high)
    (hreads : ∀ i ∈ op'.reads, i ∈ op.reads ∨ Numbers low k i) (hlabels : op'.labels = []) :
    ∀ b ∈ [Action.new s!"r{k}" op'], op.Spawns id low high b := by
  intro b hb
  rw [List.mem_singleton] at hb
  exact hb ▸ .helper hlow hhigh hreads hlabels

theorem Access.anchor_base {flags : PageFlags} {a a' : Access} {label : Option Id}
    (h : a.anchor flags context state = .ok (a', label) state') :
    a'.op = a.op ∧ a'.base = a.base ∧ state'.ids.values = state.ids.values := by
  obtain ⟨hsame, _, hvalues⟩ := anchor_ok h
  rw [hsame]
  exact ⟨rfl, rfl, hvalues⟩

structure Access.Reached (op : Op) (id : Id) (low high : Nat) (a : Access) (before : List Action)
    (a' : Access) : Prop where
  same : a'.op = a.op
  before : ∀ b ∈ before, op.Spawns id low high b
  base : ∀ i ∈ a'.base, i ∈ op.reads ∨ Numbers low high i

theorem Access.widen_reached {address : List Action} {a a' : Access}
    (haddress : a.Reached op id low state.ids.values address a) (hlow : low ≤ state.ids.values)
    (h : a.widen address context state = .ok (before, a') state') :
    a.Reached op id low state'.ids.values before a' := by
  obtain ⟨_, rfl, rfl, rfl⟩ | ⟨base, _, _, next, _, hbase, hoffset, hsum, rfl, rfl⟩ := widen_ok h
  · exact haddress
  obtain ⟨rfl, hnext⟩ := Lower.freshValue_ok hoffset
  obtain ⟨rfl, hlast⟩ := Lower.freshValue_ok hsum
  refine ⟨rfl, ?_, ?_⟩
  · intro b hb
    simp only [List.mem_append, List.mem_cons, List.not_mem_nil, or_false] at hb
    rcases hb with hb | rfl | rfl
    · exact (haddress.before b hb).grow (by omega)
    · exact Op.spawns_li hlow (by omega)
    · refine .helper (k := next.ids.values) (by omega) (by omega) ?_ rfl
      simp only [Arithmetic.binary, Op.reads, Option.toList_some, List.singleton_append,
        List.mem_cons, List.not_mem_nil, or_false]
      rintro i (rfl | rfl)
      · exact (haddress.base i hbase).imp_right fun hnew => hnew.mono (Nat.le_refl low) (by omega)
      · exact .inr ⟨_, hlow, by omega, rfl⟩
  · rintro _ ⟨⟩
    exact .inr ⟨_, by omega, by omega, rfl⟩

theorem Access.expand_reached (id : Id) {flags : PageFlags} {a a' : Access}
    (hbase : ∀ i ∈ a.base, i ∈ op.reads)
    (h : a.expand flags context state = .ok (before, a') state') :
    a.Reached op id state.ids.values state'.ids.values before a' := by
  obtain ⟨anchored, label, next, hanchor, h⟩ := expand_ok h
  obtain ⟨hop, hsame, hvalues⟩ := anchor_base hanchor
  rw [← hvalues]
  rcases h with ⟨_, h⟩ | ⟨name, _, last, _, hfresh, h⟩
  · have hstart : anchored.Reached op id next.ids.values next.ids.values [] anchored :=
      ⟨rfl, by simp, fun i hi => .inl (hbase i (hsame ▸ hi))⟩
    have hwidened := widen_reached hstart (Nat.le_refl _) h
    exact ⟨hwidened.same.trans hop, hwidened.before, hwidened.base⟩
  · obtain ⟨rfl, hlast⟩ := Lower.freshValue_ok hfresh
    have hstart : Access.Reached op id next.ids.values last.ids.values
        { anchored with base := some s!"r{next.ids.values}" }
        [Action.li s!"r{next.ids.values}" (.symbol name)]
        { anchored with base := some s!"r{next.ids.values}" } := by
      refine ⟨rfl, ?_, ?_⟩
      · intro b hb
        rw [List.mem_singleton] at hb
        exact hb ▸ Op.spawns_li (Nat.le_refl _) (by omega)
      · rintro _ ⟨⟩
        exact .inr ⟨_, Nat.le_refl _, by omega, rfl⟩
    have hwidened := widen_reached hstart (by omega) h
    exact ⟨hwidened.same.trans hop, hwidened.before, hwidened.base⟩

theorem Op.FillsT2.spawns {src : Option Id} (h : op'.FillsT2 src) (hsrc : ∀ i ∈ src, i ∈ op.reads)
    {k : Nat} (hlow : low ≤ k) (hhigh : k < high) :
    ∀ b ∈ [Action.new s!"r{k}" op'], op.Spawns id low high b := by
  cases h with
  | move hgiven =>
    exact spawns_new hlow hhigh (fun i hi => .inl (hsrc i (hgiven ▸ List.mem_singleton.1 hi ▸ rfl))) rfl
  | load => exact spawns_new hlow hhigh (by simp [reads]) rfl

theorem CsrWrite.expand_spawns (id : Id) {w w' : CsrWrite}
    (h : w.expand context state = .ok (before, w') state') :
    (∀ b ∈ before, (Op.csrWrite w).Spawns id state.ids.values state'.ids.values b) ∧
      ∀ i ∈ w'.src, i ∈ w.src ∨ Numbers state.ids.values state'.ids.values i := by
  obtain ⟨_, random, ⟨_, rfl, rfl, rfl⟩ | ⟨op, _, hop, hload, rfl, rfl⟩⟩ := expand_ok h
  · exact ⟨by simp, fun i hi => .inl hi⟩
  · obtain ⟨(rfl : _ = s!"r{state.ids.values}"), (hnext : _ = state.ids.values + 1)⟩ :=
      Lower.freshValue_ok hload
    constructor
    · rcases hop with ⟨_, hfills⟩ | ⟨_, v, rfl⟩
      · exact hfills.spawns (by simp [Op.reads]) (Nat.le_refl _) (by omega)
      · exact Op.spawns_new (Nat.le_refl _) (by omega) (by simp [Op.reads]) rfl
    · rintro _ ⟨⟩
      exact .inr ⟨_, Nat.le_refl _, by omega, rfl⟩

theorem PteTarget.expandWrite_spawns (id : Id) {target target' : PteTarget}
    (h : target.expandWrite context state = .ok (before, target') state') :
    (∀ b ∈ before, (Op.writePte target).Spawns id state.ids.values state'.ids.values b) ∧
      ∀ i ∈ target'.src, Numbers state.ids.values state'.ids.values i := by
  obtain ⟨op, _, random, hfills, hload, rfl, rfl⟩ := expandWrite_ok h
  obtain ⟨(rfl : _ = s!"r{state.ids.values}"), (hnext : _ = state.ids.values + 1)⟩ :=
    Lower.freshValue_ok hload
  refine ⟨hfills.spawns (by simp [Op.reads]) (Nat.le_refl _) (by omega), ?_⟩
  rintro _ ⟨⟩
  exact ⟨_, Nat.le_refl _, by omega, rfl⟩

theorem Lower.freshNamed_ok {stem name : String} (hstem : stem ∈ FreshIds.labelStems)
    (h : Lower.freshNamed stem context state = .ok name state') :
    NamesLabel name ∧ state'.ids.values = state.ids.values := by
  obtain ⟨rfl, rfl⟩ := Lower.fresh_ok.1 h
  exact ⟨⟨stem, hstem, _, rfl⟩, rfl⟩

theorem Lower.freshLabel_ok (h : Lower.freshLabel context state = .ok id state') :
    (∃ k : Nat, id = s!"L{k}") ∧ state'.ids.values = state.ids.values := by
  obtain ⟨rfl, rfl⟩ := Lower.fresh_ok.1 h
  exact ⟨⟨_, rfl⟩, rfl⟩

theorem Op.behind_spawns (hbefore : ∀ b ∈ before, op.Spawns id low high b)
    (hkeeps : op.Keeps low high op') :
    ∀ b ∈ (behind id op' before).actions, op.Spawns id low high b := by
  intro b hb
  rw [behind_actions, List.mem_append, List.mem_singleton] at hb
  rcases hb with hb | rfl
  · exact hbefore b hb
  · exact .itself hkeeps

theorem Op.fetched_spawns (hreads : op.reads = []) (hlabels : op.labels = [])
    (htemplates : ∀ catalog, op.templates catalog = []) {read : Id}
    (hread : Lower.freshValue context state = .ok read state') :
    ∀ b ∈ (fetched id op read).actions, op.Spawns id state.ids.values state'.ids.values b := by
  obtain ⟨rfl, hnext⟩ := Lower.freshValue_ok hread
  intro b hb
  simp only [fetched, Expansion.actions, List.mem_cons, List.not_mem_nil, or_false] at hb
  rcases hb with rfl | rfl
  · exact .helper (Nat.le_refl _) (by omega) (by simp [hreads]) hlabels
  · exact .itself ⟨fun catalog => (htemplates catalog).symm, by simp [reads], by simp [labels]⟩

theorem Op.expand_spawns (h : op.expand id context state = .ok e state') :
    ∀ b ∈ e.actions, op.Spawns id state.ids.values state'.ids.values b := by
  cases expand_ok h with
  | alone => exact behind_spawns (by simp) (.refl _ _ _)
  | @load access access' before _ haccess =>
    have hbase : ∀ i ∈ access.base, i ∈ (Op.load access).reads := by simp [reads]
    have hreached := Access.expand_reached id hbase haccess
    refine behind_spawns hreached.before ⟨?_, ?_, by simp [labels]⟩
    · simp [templates, Access.templates, hreached.same]
    · simpa [reads] using hreached.base
  | @store access access' value before _ haccess =>
    have hbase : ∀ i ∈ access.base, i ∈ (Op.store access value).reads :=
      fun i hi => List.mem_append_right _ (Option.mem_toList.2 hi)
    have hreached := Access.expand_reached id hbase haccess
    refine behind_spawns hreached.before ⟨?_, ?_, by simp [labels]⟩
    · simp [templates, Access.templates, hreached.same]
    · intro i hi
      rcases List.mem_append.1 hi with hi | hi
      · exact .inl (List.mem_append_left _ hi)
      · exact hreached.base i (Option.mem_toList.1 hi)
  | @call target old _ _ hbase =>
    obtain ⟨rfl, hnext⟩ := Lower.freshValue_ok hbase
    have hli : ∀ b ∈ [Action.new s!"r{state.ids.values}" (.li (.symbol target))],
        (Op.call target old).Spawns id state.ids.values state'.ids.values b :=
      spawns_new (Nat.le_refl _) (by omega) (by simp [reads]) rfl
    refine behind_spawns hli ⟨fun _ => rfl, ?_, by simp [labels]⟩
    rintro _ hi
    simp only [reads, Option.toList_some, List.mem_singleton] at hi
    exact .inr ⟨_, Nat.le_refl _, by omega, hi⟩
  | csrRead _ hread => exact fetched_spawns rfl rfl (fun _ => rfl) hread
  | readPte hread => exact fetched_spawns rfl rfl (fun _ => rfl) hread
  | csrWrite hwrite =>
    obtain ⟨hbefore, hsrc⟩ := CsrWrite.expand_spawns id hwrite
    exact behind_spawns hbefore ⟨fun _ => rfl, by simpa [reads] using hsrc, by simp [labels]⟩
  | writePte hwrite =>
    obtain ⟨hbefore, hsrc⟩ := PteTarget.expandWrite_spawns id hwrite
    refine behind_spawns hbefore ⟨fun _ => rfl, ?_, by simp [labels]⟩
    exact fun i hi => .inr (hsrc i (by simpa [reads] using hi))
  | @compare _ _ _ _ _ _ _ named _ _ hpass hfail hlabel =>
    obtain ⟨hmade, hnamed⟩ := Lower.freshNamed_ok (by simp [FreshIds.labelStems]) hpass
    obtain ⟨rfl, hnext⟩ := Lower.freshValue_ok hfail
    obtain ⟨⟨k, rfl⟩, hlast⟩ := Lower.freshLabel_ok hlabel
    intro b hb
    simp only [Expansion.actions, List.mem_cons, List.not_mem_nil, or_false] at hb
    rcases hb with rfl | rfl | rfl
    · refine .itself ⟨fun _ => rfl, fun i hi => .inl hi, ?_⟩
      simpa [labels] using .inr hmade
    · exact .helper (k := named.ids.values) (by omega) (by omega) (by simp [reads]) rfl
    · exact .label hmade
  | @jumpToFail _ _ _ next _ haddress htarget =>
    obtain ⟨rfl, hnext⟩ := Lower.freshValue_ok haddress
    obtain ⟨rfl, hlast⟩ := Lower.freshValue_ok htarget
    refine behind_spawns ?_ ⟨fun _ => rfl, ?_, by simp [labels]⟩
    · rw [List.forall_mem_cons, List.forall_mem_singleton]
      refine ⟨spawns_li (Nat.le_refl _) (by omega),
        .helper (k := next.ids.values) (by omega) (by omega) ?_ rfl⟩
      rintro _ hi
      simp only [reads, Access.to, Option.toList_some, List.mem_singleton] at hi
      exact .inr ⟨_, Nat.le_refl _, by omega, hi⟩
    · rintro _ hi
      simp only [reads, Option.toList_some, List.mem_singleton] at hi
      exact .inr ⟨next.ids.values, by omega, by omega, hi⟩
  | @modifyPte _ _ _ _ _ _ next _ _ hentry hwrite =>
    obtain ⟨rfl, hnext⟩ := Lower.freshValue_ok hentry
    obtain ⟨rfl, hlast⟩ := Lower.freshValue_ok hwrite
    intro b hb
    simp only [Expansion.actions, List.mem_cons, List.not_mem_nil, or_false] at hb
    rcases hb with rfl | rfl
    · exact spawns_li (Nat.le_refl _) (by omega)
    · refine .helper (k := next.ids.values) (by omega) (by omega) ?_ rfl
      rintro _ hi
      simp only [reads, Access.to, Option.toList_some, Option.toList_none, List.append_nil,
        List.mem_singleton] at hi
      exact .inr ⟨_, Nat.le_refl _, by omega, hi⟩

end Expand

namespace Action

/-- A property of actions that holds of all that expansion makes of them, given the number of the
next value. -/
structure Inherited (P : Nat → Action → Prop) : Prop where
  grow : ∀ a low high, low ≤ high → P low a → P high a
  spawned : ∀ id op low high b, P low (.simple id false op) → low ≤ high →
    op.Spawns id low high b → P high b
  helper : ∀ (k n : Nat) op, k < n → op.reads = [] → op.labels = [] →
    P n (.simple s!"r{k}" false op)
  label : ∀ (k n : Nat) name pointer, NamesLabel name →
    P n (.simple s!"L{k}" false (.label name pointer))
  codePage : ∀ id spec code n, P n (.block id false (.codePage spec) code) →
    P n (.block id true (.codePage spec) []) ∧ ∀ a ∈ code, P n a
  assertException : ∀ id cause fault resume fault' resume' code n,
    P n (.block id false (.assertException cause fault resume) code) →
    NamesLabel fault' → NamesLabel resume' →
    P n (.block id true (.assertException cause (some fault') (some resume')) []) ∧
      ∀ a ∈ code, P n a

variable {P : Nat → Action → Prop} (hP : Inherited P)
include hP

mutual

theorem expand_inherits {a : Action} {e : Expansion} {state state' : State}
    (ha : P state.ids.values a) (h : a.expand context state = .ok e state') :
    ∀ b ∈ e.actions, P state'.ids.values b := by
  match a with
  | .simple id true op | .block id true owner code =>
    obtain ⟨rfl, rfl⟩ := expand_of_expanded rfl h
    simpa [Expansion.actions] using ha
  | .simple id false op =>
    rw [expand] at h
    intro b hb
    have hcounts : state.ids.values ≤ state'.ids.values :=
      Lower.opExpand_moves (R := Lower.CountsOn) id op _ _ _ _ h
    exact hP.spawned id op _ _ b ha hcounts (Op.expand_spawns h b hb)
  | .block id false (.codePage spec) code =>
    obtain ⟨_, hfresh, rfl⟩ := codePage_ok h
    obtain ⟨rfl, hnext⟩ := Lower.freshValue_ok hfresh
    obtain ⟨hpage, hcode⟩ := hP.codePage id spec code _ ha
    intro b hb
    simp only [Expansion.actions, List.cons_append, List.mem_cons, List.mem_append,
      List.not_mem_nil, or_false] at hb
    rcases hb with rfl | hb | rfl
    · exact hP.grow _ _ _ (by omega) hpage
    · exact hP.grow _ _ _ (by omega) (hcode b hb)
    · exact hP.helper _ _ _ (by omega) rfl rfl
  | .block id false (.assertException cause old old') code =>
    obtain ⟨_, body, fault, resume, _, _, _, s₁, _, _, _, _, hbody, hfault, hresume, hlabel, hfail,
      hlabel', rfl⟩ := assertException_ok h
    obtain ⟨hfaultName, h₂⟩ := Lower.freshNamed_ok (by simp [FreshIds.labelStems]) hfault
    obtain ⟨hresumeName, h₃⟩ := Lower.freshNamed_ok (by simp [FreshIds.labelStems]) hresume
    obtain ⟨⟨k, rfl⟩, h₄⟩ := Lower.freshLabel_ok hlabel
    obtain ⟨rfl, h₅⟩ := Lower.freshValue_ok hfail
    obtain ⟨⟨k', rfl⟩, h₆⟩ := Lower.freshLabel_ok hlabel'
    have hcounts : state.ids.values ≤ s₁.ids.values :=
      Lower.expandEach_moves (R := Lower.CountsOn) code _ _ _ _ hbody
    obtain ⟨hblock, hcode⟩ := hP.assertException id cause old old' _ _ code _ ha hfaultName hresumeName
    have hbody := expandEach_inherits hcode hbody
    intro b hb
    simp only [Expansion.actions, List.cons_append, List.mem_cons, List.mem_append,
      insertBeforeLast_mem, List.not_mem_nil, or_false] at hb
    rcases hb with rfl | (rfl | hb) | rfl | rfl
    · exact hP.grow _ _ _ (by omega) hblock
    · exact hP.label _ _ _ _ hfaultName
    · exact hP.grow _ _ _ (by omega) (hbody b hb)
    · exact hP.helper _ _ _ (by omega) rfl rfl
    · exact hP.label _ _ _ _ hresumeName

theorem expandEach_inherits {code body : List Action} {state state' : State}
    (hcode : ∀ a ∈ code, P state.ids.values a)
    (h : expandEach code context state = .ok body state') : ∀ b ∈ body, P state'.ids.values b := by
  match code with
  | [] =>
    obtain ⟨rfl, _⟩ := expandEach_nil_ok.1 h
    simp
  | a :: rest =>
    obtain ⟨e, next, more, ha, hmore, rfl⟩ := expandEach_cons_ok h
    have hown := expand_inherits (hcode a List.mem_cons_self) ha
    have hearly : state.ids.values ≤ next.ids.values :=
      Lower.expand_moves (R := Lower.CountsOn) a _ _ _ _ ha
    have hlate : next.ids.values ≤ state'.ids.values :=
      Lower.expandEach_moves (R := Lower.CountsOn) rest _ _ _ _ hmore
    have hrest := expandEach_inherits (fun b hb =>
      hP.grow _ _ _ hearly (hcode b (List.mem_cons_of_mem _ hb))) hmore
    intro b hb
    rcases List.mem_append.1 hb with hb | hb
    · exact hP.grow _ _ _ hlate (hown b hb)
    · exact hrest b hb

end

theorem Worked.inherits {actions out : List Action} (h : Worked context actions state out state')
    (hactions : ∀ a ∈ actions, P state.ids.values a) :
    state.ids.values ≤ state'.ids.values ∧ ∀ b ∈ out, P state'.ids.values b := by
  induction h with
  | done => exact ⟨Nat.le_refl _, by simp⟩
  | kept _ _ ih =>
    obtain ⟨ha, hrest⟩ := List.forall_mem_cons.1 hactions
    obtain ⟨hle, hmore⟩ := ih hrest
    exact ⟨hle, List.forall_mem_cons.2 ⟨hP.grow _ _ _ hle ha, hmore⟩⟩
  | @next a _ _ _ s t _ _ he _ ih =>
    obtain ⟨ha, hrest⟩ := List.forall_mem_cons.1 hactions
    have hearly : s.ids.values ≤ t.ids.values :=
      Lower.expand_moves (R := Lower.CountsOn) a _ _ _ _ he
    have hlist := List.forall_mem_append.2
      ⟨expand_inherits hP ha he, fun b hb => hP.grow _ _ _ hearly (hrest b hb)⟩
    obtain ⟨hle, hout⟩ := ih hlist
    exact ⟨Nat.le_trans hearly hle, hout⟩

theorem expandAll_inherits {actions out : List Action}
    (hactions : ∀ a ∈ actions, P state.ids.values a)
    (h : expandAll actions context state = .ok out state') :
    ∀ b ∈ out, P state'.ids.values b := ((expandAll_ok.1 h).inherits hP hactions).2

end Action
end PlanLowering
