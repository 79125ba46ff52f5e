import PlanLowering.Proofs.Choice
import PlanLowering.Proofs.Numbering
import PlanLowering.Proofs.PageStore

/-!
# Runs that end well

What has to hold before a run for it to end with a result, and what holds then. A failure anywhere
ends the run, so each step has to succeed in the state that the steps in front of it leave behind.
-/

namespace PlanLowering

namespace Lower

variable {α β : Type} {context : Context} {s : State} {m : Lower α} {f : α → Lower β} {a : α}
variable {post post' : α → State → Prop}

def Succeeds (m : Lower α) (context : Context) (s : State) (post : α → State → Prop) : Prop :=
  ∃ a s', m context s = .ok a s' ∧ post a s'

theorem Succeeds.mono (h : m.Succeeds context s post) (hsub : ∀ a s', post a s' → post' a s') :
    m.Succeeds context s post' := by
  obtain ⟨a, s', hrun, ha⟩ := h
  exact ⟨a, s', hrun, hsub a s' ha⟩

theorem Succeeds.attach (h : m.Succeeds context s post) :
    m.Succeeds context s fun a s' => m context s = .ok a s' ∧ post a s' := by
  obtain ⟨a, s', hrun, hpost⟩ := h
  exact ⟨a, s', hrun, hrun, hpost⟩

@[simp] theorem succeeds_pure : (pure a : Lower α).Succeeds context s post ↔ post a s := by
  simp [Succeeds]

@[simp] theorem succeeds_bind {post : β → State → Prop} : (m >>= f).Succeeds context s post ↔
    m.Succeeds context s fun a s' => (f a).Succeeds context s' post := by
  constructor
  · rintro ⟨b, s', hrun, hb⟩
    obtain ⟨a, next, ha, hrest⟩ := bind_ok.1 hrun
    exact ⟨a, next, ha, b, s', hrest, hb⟩
  · rintro ⟨a, next, ha, b, s', hrest, hb⟩
    exact ⟨b, s', bind_ok.2 ⟨a, next, ha, hrest⟩, hb⟩

@[simp] theorem succeeds_throw {e : LoweringError} :
    (throw e : Lower α).Succeeds context s post ↔ False := by
  simp [Succeeds]

@[simp] theorem succeeds_read {post : Context → State → Prop} :
    (read : Lower Context).Succeeds context s post ↔ post context s := by
  simp [Succeeds]

@[simp] theorem succeeds_get {post : State → State → Prop} :
    (get : Lower State).Succeeds context s post ↔ post s s := by
  simp [Succeeds]

@[simp] theorem succeeds_modify {g : State → State} {post : PUnit → State → Prop} :
    (modify g : Lower PUnit).Succeeds context s post ↔ post ⟨⟩ (g s) := by
  simp only [Succeeds, modify_ok, exists_eq_left']
  constructor
  · rintro ⟨_, h⟩
    exact h
  · exact fun h => ⟨_, h⟩

@[simp] theorem succeeds_ofExcept {x : Except LoweringError α} :
    (ofExcept x).Succeeds context s post ↔ ∃ a, x = .ok a ∧ post a s := by
  simp [Succeeds]

@[simp] theorem succeeds_environment {post : Environment → State → Prop} :
    environment.Succeeds context s post ↔ post context.environment s := by
  simp [Succeeds]

@[simp] theorem succeeds_options {post : Options → State → Prop} :
    options.Succeeds context s post ↔ post context.options s := by
  simp [Succeeds]

@[simp] theorem succeeds_instruction {name : String} {post : Instruction → State → Prop} :
    (Lower.instruction name).Succeeds context s post ↔
      ∃ i, context.catalog.instruction name = .ok i ∧ post i s := by
  simp [Succeeds]

@[simp] theorem succeeds_targetLevel {level : UInt8} {recursive : Bool}
    {post : UInt8 → State → Prop} : (targetLevel level recursive).Succeeds context s post ↔
      (recursive = false → level = 255 → context.overflow = .wraps) ∧
        post (if recursive then level else level + 1) s := by
  simp [Succeeds, and_assoc]

@[simp] theorem succeeds_fresh {next : FreshIds → Id × FreshIds} {post : Id → State → Prop} :
    (fresh next).Succeeds context s post ↔
      post (next s.ids).1 { s with ids := (next s.ids).2 } := by
  simp [Succeeds]

@[simp] theorem succeeds_reserve {kind : PageKind} {id : Id} {spec : PageSpec}
    {post : Unit → State → Prop} : (reserve kind id spec).Succeeds context s post ↔
      ¬ s.pages.isLabel id ∧ post () { s with pages := s.pages.add kind id spec } := by
  simp only [Succeeds, reserve_ok]
  constructor
  · rintro ⟨_, _, ⟨h, rfl⟩, hpost⟩
    exact ⟨h, hpost⟩
  · rintro ⟨h, hpost⟩
    exact ⟨_, _, ⟨h, rfl⟩, hpost⟩

@[simp] theorem succeeds_expanding {action : String} :
    (expanding action m).Succeeds context s post ↔ m.Succeeds context s post := by
  simp [Succeeds]

theorem succeeds_draw {d : Draw α} {good : α → Prop} (hd : d.Total good)
    (h : ∀ a random, good a → post a { s with random }) : (draw d).Succeeds context s post := by
  obtain ⟨a, random, hrun, ha⟩ := hd s.random
  exact ⟨a, _, draw_ok.2 ⟨random, hrun, rfl⟩, h a random ha⟩

theorem succeeds_chooseFrom {candidates : List Template} {filter : TemplateFilter}
    {post : Instruction → State → Prop} (hcandidates : candidates ≠ [])
    (h : ∀ t ∈ candidates, ∀ random, post t.instruction { s with random }) :
    (chooseFrom candidates filter).Succeeds context s post := by
  obtain ⟨t, ht, random, hchoice⟩ := Draw.choice_ok hcandidates s.random
  refine succeeds_bind.2 ⟨some t, _, draw_ok.2 ⟨random, hchoice, rfl⟩, ?_⟩
  exact succeeds_pure.2 (h t ht random)

end Lower

def FreshIds.Spelled (id : Id) : Prop := ∃ (r : IdRequest) (k : Nat), id = r.stem ++ k.repr

structure State.Offers (pages : Id → Prop) (s : State) : Prop where
  known : ∀ id, pages id → s.pages.isLabel id
  given : ∀ id, s.pages.isLabel id → s.ids.Given id ∨ pages id ∧ ¬ FreshIds.Spelled id

namespace State.Offers

variable {pages : Id → Prop} {s : State} {id : Id}

theorem of_pagesGiven (h : s.PagesGiven) (hknown : ∀ id, pages id → s.pages.isLabel id) :
    s.Offers pages := ⟨hknown, fun id hid => .inl (h id hid)⟩

theorem random (h : s.Offers pages) (random : RandomSource) :
    State.Offers pages { s with random } := ⟨h.known, h.given⟩

theorem next (h : s.Offers pages) (r : IdRequest) :
    State.Offers pages { s with ids := (r.next s.ids).2 } :=
  ⟨h.known, fun id hid => (h.given id hid).imp_left fun hgiven => hgiven.next r⟩

theorem unknown_next (h : s.Offers pages) (r : IdRequest) :
    ¬ s.pages.isLabel (r.next s.ids).1 := by
  intro hlabel
  rcases h.given _ hlabel with hgiven | ⟨_, hspelled⟩
  · exact FreshIds.next_not_given hgiven
  · exact hspelled ⟨r, _, r.next_fst s.ids⟩

theorem unknown (h : s.Offers pages) (hpage : ¬ pages id) (hid : ¬ FreshIds.Spelled id) :
    ¬ s.pages.isLabel id := by
  intro hlabel
  rcases h.given _ hlabel with ⟨r, k, _, hgiven⟩ | ⟨hknown, _⟩
  · exact hid ⟨r, k, hgiven⟩
  · exact hpage hknown

theorem register (h : s.Offers pages) (kind : PageKind) (spec : PageSpec) (hpage : ¬ pages id)
    (hid : ¬ FreshIds.Spelled id) :
    State.Offers (fun x => x = id ∨ pages x) { s with pages := s.pages.add kind id spec } := by
  refine ⟨fun x hx => PageRegistry.isLabel_add.2 (hx.imp_right (h.known x)), fun x hx => ?_⟩
  rcases PageRegistry.isLabel_add.1 hx with rfl | hx
  · exact .inr ⟨.inl rfl, hid⟩
  · exact (h.given x hx).imp_right fun hx => ⟨.inr hx.1, hx.2⟩

theorem register_next (h : s.Offers pages) (r : IdRequest) (kind : PageKind) (spec : PageSpec) :
    State.Offers pages { s with
      ids := (r.next s.ids).2
      pages := s.pages.add kind (r.next s.ids).1 spec } := by
  refine ⟨fun x hx => PageRegistry.isLabel_add.2 (.inr (h.known x hx)), fun x hx => ?_⟩
  rcases PageRegistry.isLabel_add.1 hx with rfl | hx
  · exact .inl FreshIds.next_given
  · exact (h.next r).given x hx

end State.Offers
end PlanLowering
