import PlanLowering.Proofs.BatchValues
import PlanLowering.Proofs.WorkedLists
import PlanLowering.Proofs.Selectable

/-!
# Plain actions in order

Plain actions do not read what comes after them, and what they read by the id of another action is a
value that the other makes. Expansion puts helpers in front of an action, under new ids, and keeps
to this order.
-/

namespace PlanLowering

open FreshIds (Below)

variable {context : Context} {s s' : State} {n low high : Nat} {a b : Action} {id : Id}
variable {actions out : List Action}

namespace Action

/-- An action without nested code that does not read its own id, with ids given out before number
`n`. -/
inductive Plain (n : Nat) : Action → Prop where
  | simple {id expanded op} (hop : op.Plain) (hbased : expanded = true → op.Based)
      (hbelow : Below n id) (hreads : ∀ x ∈ op.reads, Below n x) (hown : id ∉ op.reads) :
      Plain n (.simple id expanded op)

def Makes : Action → Prop
  | .simple _ _ op => op.Makes
  | .block .. => False

structure Precedes (a b : Action) : Prop where
  apart : b.id ≠ a.id
  unread : b.id ∉ a.reads
  made : a.id ∈ b.reads → a.Makes

structure Orderly (n : Nat) (actions : List Action) : Prop where
  plain : ∀ a ∈ actions, a.Plain n
  order : actions.Pairwise Precedes

/-- Actions under new ids that make values out of given ones. -/
structure Helpers (low high : Nat) (given : List Id) (helpers : List Action) : Prop where
  plain : ∀ x ∈ helpers, x.Plain high
  reads : ∀ x ∈ helpers, ∀ y ∈ x.reads, y ∈ given ∨ FreshIds.Numbers low high y
  new : ∀ x ∈ helpers, FreshIds.Numbers low high x.id ∧ x.Makes
  order : helpers.Pairwise Precedes

structure StandsIn (low high : Nat) (a : Action) (helpers : List Action) (b : Action) : Prop where
  helpers : Helpers low high a.reads helpers
  plain : b.Plain high
  id : b.id = a.id
  makes : a.Makes → b.Makes
  reads : ∀ y ∈ b.reads, y ∈ a.reads ∨ FreshIds.Numbers low high y

theorem Plain.mono (h : a.Plain low) (hle : low ≤ high) : a.Plain high := by
  obtain ⟨hop, hbased, hbelow, hreads, hown⟩ := h
  exact .simple hop hbased (hbelow.mono hle) (fun x hx => (hreads x hx).mono hle) hown

theorem Plain.below (h : a.Plain n) : Below n a.id := by
  obtain ⟨_, _, hbelow, _, _⟩ := h
  exact hbelow

theorem Plain.reads_below (h : a.Plain n) : ∀ x ∈ a.reads, Below n x := by
  obtain ⟨_, _, _, hreads, _⟩ := h
  exact hreads

theorem Plain.own (h : a.Plain n) : a.id ∉ a.reads := by
  obtain ⟨_, _, _, _, hown⟩ := h
  exact hown

namespace Helpers

variable {helpers : List Action} {given : List Id}

theorem nil : Helpers low high given [] := ⟨by simp, by simp, by simp, List.Pairwise.nil⟩

theorem grow (h : Helpers low n given helpers) (hle : n ≤ high) :
    Helpers low high given helpers where
  plain x hx := (h.plain x hx).mono hle
  reads x hx y hy := (h.reads x hx y hy).imp_right (·.mono (Nat.le_refl low) hle)
  new x hx := ⟨(h.new x hx).1.mono (Nat.le_refl low) hle, (h.new x hx).2⟩
  order := h.order

theorem mono {given' : List Id} (h : Helpers low high given helpers) (hsub : given ⊆ given') :
    Helpers low high given' helpers :=
  { h with reads := fun x hx y hy => (h.reads x hx y hy).imp_left (@hsub y) }

theorem snoc (op : Op) (h : Helpers low n given helpers) (hlow : low ≤ n)
    (hgiven : ∀ y ∈ given, Below low y) (hop : op.Plain) (hmakes : op.Makes)
    (hreads : ∀ y ∈ op.reads, y ∈ given ∨ FreshIds.Numbers low n y) :
    Helpers low (n + 1) given (helpers ++ [Action.new s!"r{n}" op]) := by
  have hbelow : ∀ y ∈ op.reads, Below n y := fun y hy =>
    (hreads y hy).elim (fun hy => (hgiven y hy).mono hlow) FreshIds.Numbers.below
  have hself : FreshIds.Numbers low (n + 1) s!"r{n}" := ⟨n, hlow, Nat.lt_succ_self n, rfl⟩
  obtain ⟨hplain, hread, hnew, horder⟩ := h.grow (Nat.le_succ n)
  constructor
  case plain =>
    refine List.forall_mem_append.2 ⟨hplain, List.forall_mem_singleton.2 ?_⟩
    refine .simple hop (by simp) hself.below (fun y hy => (hbelow y hy).mono (Nat.le_succ n)) ?_
    exact fun hown => absurd (FreshIds.below_value.1 (hbelow _ hown)) (Nat.lt_irrefl n)
  case reads =>
    refine List.forall_mem_append.2 ⟨hread, List.forall_mem_singleton.2 fun y hy => ?_⟩
    exact (hreads y hy).imp_right (·.mono (Nat.le_refl low) (Nat.le_succ n))
  case new =>
    exact List.forall_mem_append.2 ⟨hnew, List.forall_mem_singleton.2 ⟨hself, hmakes⟩⟩
  case order =>
    refine List.pairwise_append.2 ⟨horder, List.pairwise_singleton _ _, fun x hx y hy => ?_⟩
    rw [List.mem_singleton.1 hy]
    have hself : ¬ Below n s!"r{n}" := fun h =>
      absurd (FreshIds.below_value.1 h) (Nat.lt_irrefl n)
    refine ⟨fun heq => hself ?_, fun hmem => hself ?_, fun _ => (h.new x hx).2⟩
    · have heq : s!"r{n}" = x.id := heq
      rw [heq]
      exact (h.new x hx).1.below
    · exact (h.reads x hx _ hmem).elim (fun hy => (hgiven _ hy).mono hlow) FreshIds.Numbers.below

end Helpers

namespace StandsIn

variable {helpers : List Action}

theorem mem_plain (h : StandsIn low high a helpers b) : ∀ x ∈ helpers ++ [b], x.Plain high :=
  List.forall_mem_append.2 ⟨h.helpers.plain, List.forall_mem_singleton.2 h.plain⟩

theorem mem_reads (h : StandsIn low high a helpers b) :
    ∀ x ∈ helpers ++ [b], ∀ y ∈ x.reads, y ∈ a.reads ∨ FreshIds.Numbers low high y :=
  List.forall_mem_append.2 ⟨h.helpers.reads, List.forall_mem_singleton.2 h.reads⟩

theorem mem_id (h : StandsIn low high a helpers b) {x : Action} (hx : x ∈ helpers ++ [b]) :
    x.id = a.id ∨ FreshIds.Numbers low high x.id := by
  rcases List.mem_append.1 hx with hx | hx
  · exact .inr (h.helpers.new x hx).1
  · rw [List.mem_singleton.1 hx]
    exact .inl h.id

theorem mem_makes (h : StandsIn low high a helpers b) {x : Action} (hx : x ∈ helpers ++ [b])
    (ha : x.id = a.id → a.Makes) : x.Makes := by
  rcases List.mem_append.1 hx with hx | hx
  · exact (h.helpers.new x hx).2
  · rw [List.mem_singleton.1 hx] at ha ⊢
    exact h.makes (ha h.id)

theorem precedes (h : StandsIn low high a helpers b) {c : Action} (hc : c.Plain low)
    (hca : c.Precedes a) : ∀ x ∈ helpers ++ [b], c.Precedes x := by
  intro x hx
  constructor
  · intro heq
    rcases h.mem_id hx with hid | hid
    · exact hca.apart (hid.symm.trans heq)
    · exact hc.below.not_numbers (heq ▸ hid)
  · intro hmem
    rcases h.mem_id hx with hid | hid
    · exact hca.unread (hid ▸ hmem)
    · exact (hc.reads_below _ hmem).not_numbers hid
  · intro hmem
    exact hca.made ((h.mem_reads x hx _ hmem).resolve_right hc.below.not_numbers)

theorem preceded (h : StandsIn low high a helpers b) {c : Action} (hc : c.Plain low)
    (hac : a.Precedes c) : ∀ x ∈ helpers ++ [b], x.Precedes c := by
  intro x hx
  constructor
  · intro heq
    rcases h.mem_id hx with hid | hid
    · exact hac.apart (heq.trans hid)
    · exact hc.below.not_numbers (heq ▸ hid)
  · intro hmem
    rcases h.mem_reads x hx _ hmem with hread | hnew
    · exact hac.unread hread
    · exact hc.below.not_numbers hnew
  · intro hmem
    exact h.mem_makes hx fun hid => hac.made (hid ▸ hmem)

theorem pairwise (h : StandsIn low high a helpers b) (ha : a.Plain low) :
    (helpers ++ [b]).Pairwise Precedes := by
  refine List.pairwise_append.2 ⟨h.helpers.order, List.pairwise_singleton _ _, fun x hx y hy => ?_⟩
  rw [List.mem_singleton.1 hy]
  obtain ⟨hnew, hmakes⟩ := h.helpers.new x hx
  constructor
  · intro heq
    exact ha.below.not_numbers (h.id ▸ heq ▸ hnew)
  · intro hmem
    rw [h.id] at hmem
    rcases h.helpers.reads x hx _ hmem with hread | hnew
    · exact ha.own hread
    · exact ha.below.not_numbers hnew
  · exact fun _ => hmakes

end StandsIn

theorem Orderly.splice {front helpers rest : List Action} (h : Orderly low (front ++ a :: rest))
    (hb : StandsIn low high a helpers b) (hle : low ≤ high) :
    Orderly high (front ++ (helpers ++ [b] ++ rest)) := by
  obtain ⟨hplain, horder⟩ := h
  simp only [List.forall_mem_append, List.forall_mem_cons] at hplain
  obtain ⟨hfront, ha, hrest⟩ := hplain
  obtain ⟨hfrontOrder, hback, hbefore⟩ := List.pairwise_append.1 horder
  obtain ⟨hafter, hrestOrder⟩ := List.pairwise_cons.1 hback
  constructor
  · rw [List.forall_mem_append, List.forall_mem_append]
    exact ⟨fun c hc => (hfront c hc).mono hle, hb.mem_plain, fun c hc => (hrest c hc).mono hle⟩
  · refine List.pairwise_append.2 ⟨hfrontOrder, ?_, fun c hc x hx => ?_⟩
    · refine List.pairwise_append.2 ⟨hb.pairwise ha, hrestOrder, fun x hx c hc => ?_⟩
      exact hb.preceded (hrest c hc) (hafter c hc) x hx
    · rcases List.mem_append.1 hx with hx | hx
      · exact hb.precedes (hfront c hc) (hbefore c hc a List.mem_cons_self) x hx
      · exact hbefore c hc x (List.mem_cons_of_mem _ hx)

end Action

section Expand

open PlanLowering.Action

structure Access.Settles (low high : Nat) (access : Access) (before : List Action)
    (access' : Access) : Prop where
  ordered : low ≤ high
  helpers : Helpers low high access.base.toList before
  plain : access'.Plain
  based : access'.base ≠ none
  base : ∀ y ∈ access'.base, y ∈ access.base ∨ FreshIds.Numbers low high y

variable {access access' : Access} {flags : PageFlags} {before : List Action} {op : Op}
variable {e : Expansion}

/-- An offset that does not fit takes two more helpers. -/
theorem Access.widen_settles {address : List Action} {mid : Access}
    (hmid : access.Settles low s.ids.values address mid)
    (hgiven : ∀ y ∈ access.base.toList, Below low y)
    (h : mid.widen address context s = .ok (before, access') s') :
    access.Settles low s'.ids.values before access' := by
  obtain ⟨_, rfl, rfl, rfl⟩ | ⟨base, _, _, next, _, hbase, hoffset, hsum, rfl, rfl⟩ := widen_ok h
  · exact hmid
  · obtain ⟨hle, hhelpers, hplain, hbased, hreads⟩ := hmid
    obtain ⟨rfl, hnext⟩ := Lower.freshValue_ok hoffset
    obtain ⟨rfl, hlast⟩ := Lower.freshValue_ok hsum
    have hli := hhelpers.snoc (.li (.value mid.offset)) hle hgiven trivial trivial (by simp [Op.reads])
    rw [← hnext] at hli
    have hnew : FreshIds.Numbers low next.ids.values s!"r{s.ids.values}" := ⟨_, hle, by omega, rfl⟩
    have hterms : ∀ y ∈ (Op.arithmetic (.binary "add" base s!"r{s.ids.values}")).reads,
        y ∈ access.base.toList ∨ FreshIds.Numbers low next.ids.values y := by
      simp only [Arithmetic.binary, Op.reads, Option.toList_some, List.singleton_append,
        List.mem_cons, List.not_mem_nil, or_false, Option.mem_toList]
      rintro y (rfl | rfl)
      · exact (hreads y hbase).imp_right (·.mono (Nat.le_refl low) (by omega))
      · exact .inr hnew
    have hsum : (Op.arithmetic (.binary "add" base s!"r{s.ids.values}")).Plain := .inr ⟨_, _, rfl⟩
    have hadd := hli.snoc _ (by omega) hgiven hsum trivial hterms
    rw [List.append_assoc] at hadd
    rw [← hlast] at hadd
    refine ⟨by omega, hadd, ⟨hplain.unpinned, hplain.width, by simp⟩, by simp, ?_⟩
    rintro _ ⟨⟩
    exact .inr ⟨_, by omega, by omega, rfl⟩

theorem Access.expand_settles (hplain : access.Plain)
    (hgiven : ∀ y ∈ access.base.toList, Below s.ids.values y)
    (h : access.expand flags context s = .ok (before, access') s') :
    access.Settles s.ids.values s'.ids.values before access' := by
  obtain ⟨anchored, label, next, hanchor, hwiden⟩ := expand_ok h
  obtain ⟨hsame, hvalue, hvalues⟩ := anchor_ok hanchor
  rw [← hvalues] at hgiven ⊢
  rcases hwiden with ⟨hlabel, hwiden⟩ | ⟨name, base, last, _, hfresh, hwiden⟩
  · obtain ⟨rfl, id, hid⟩ := hvalue hlabel
    have hstart : anchored.Settles next.ids.values next.ids.values [] anchored :=
      ⟨Nat.le_refl _, .nil, hplain, hplain.based id hid, fun _ => .inl⟩
    exact widen_settles hstart hgiven hwiden
  · obtain ⟨rfl, hlast⟩ := Lower.freshValue_ok hfresh
    have hli := Helpers.nil.snoc (.li (.symbol name)) (Nat.le_refl _) hgiven trivial trivial
      (by simp [Op.reads])
    rw [← hlast] at hli
    refine widen_settles ⟨by omega, hli, ⟨?_, ?_, ?_⟩, ?_, ?_⟩ hgiven hwiden
    · rw [hsame]
      exact hplain.unpinned
    · rw [hsame]
      exact hplain.width
    · simp
    · simp
    · rintro _ ⟨⟩
      exact .inr ⟨_, Nat.le_refl _, by omega, rfl⟩

namespace Action

variable {op' : Op}

/-- The action itself comes last, with what it reads supplied by its helpers. -/
theorem Plain.standsIn (h : (Action.simple id false op).Plain low) (hle : low ≤ high)
    (hbefore : Helpers low high op.reads before) (hop : op'.Plain) (hbased : op'.Based)
    (hmakes : op.Makes → op'.Makes)
    (hreads : ∀ y ∈ op'.reads, y ∈ op.reads ∨ FreshIds.Numbers low high y) :
    StandsIn low high (.simple id false op) before (.simple id true op') := by
  obtain ⟨_, _, hbelow, hgiven, hown⟩ := h
  refine ⟨hbefore, .simple hop (fun _ => hbased) (hbelow.mono hle) (fun y hy => ?_) fun hmem => ?_,
    rfl, hmakes, hreads⟩
  · exact (hreads y hy).elim (fun hy => (hgiven y hy).mono hle) FreshIds.Numbers.below
  · exact (hreads id hmem).elim hown hbelow.not_numbers

theorem Plain.standsIn_self (h : a.Plain low) : StandsIn low low a [] a :=
  ⟨.nil, h, rfl, fun h => h, fun _ => .inl⟩

theorem Plain.expand (h : a.Plain s.ids.values) (hrun : a.expand context s = .ok e s') :
    s.ids.values ≤ s'.ids.values ∧ ∃ helpers b, e.actions = helpers ++ [b] ∧
      StandsIn s.ids.values s'.ids.values a helpers b := by
  have hplain := h
  obtain @⟨id, expanded, op, hop, hbased, hbelow, hreads, hown⟩ := h
  cases expanded with
  | true =>
    obtain ⟨rfl, rfl⟩ := expand_of_expanded rfl hrun
    exact ⟨Nat.le_refl _, [], _, rfl, hplain.standsIn_self⟩
  | false =>
    rw [Action.expand] at hrun
    cases Op.expand_ok hrun with
    | alone =>
      refine ⟨Nat.le_refl _, [], _, rfl, hplain.standsIn (Nat.le_refl _) .nil hop ?_ (fun h => h) fun _ => .inl⟩
      cases op <;> trivial
    | load haccess =>
      obtain ⟨hle, hbefore, hplain', hbased', hbase⟩ := Access.expand_settles hop hreads haccess
      refine ⟨hle, _, _, Op.behind_actions _ _ _,
        hplain.standsIn hle hbefore hplain' hbased' (fun h => h) ?_⟩
      simpa [Op.reads] using hbase
    | store haccess =>
      obtain ⟨hle, hbefore, hplain', hbased', hbase⟩ := Access.expand_settles hop
        (fun y hy => hreads y (List.mem_append_right _ hy)) haccess
      refine ⟨hle, _, _, Op.behind_actions _ _ _,
        hplain.standsIn hle ?_ hplain' hbased' (fun h => h) ?_⟩
      · exact hbefore.mono fun y hy => List.mem_append_right _ hy
      · intro y hy
        rcases List.mem_append.1 hy with hy | hy
        · exact .inl (List.mem_append_left _ hy)
        · exact (hbase y (Option.mem_toList.1 hy)).imp_left fun hy =>
            List.mem_append_right _ (Option.mem_toList.2 hy)
    | _ => exact hop.elim

theorem Worked.orderly (hrun : Worked context actions s out s') (front : List Action)
    (h : Orderly s.ids.values (front ++ actions)) : Orderly s'.ids.values (front ++ out) := by
  induction hrun generalizing front with
  | done => exact h
  | @kept a _ _ _ _ _ _ ih =>
    rw [List.append_cons] at h ⊢
    exact ih (front ++ [a]) h
  | @next a _ _ _ _ _ _ _ he _ ih =>
    have ha : a.Plain _ := h.plain a (by simp)
    obtain ⟨hle, helpers, b, hactions, hstands⟩ := ha.expand he
    have hspliced := h.splice hstands hle
    rw [← hactions] at hspliced
    exact ih front hspliced

theorem expandAll_orderly (h : Orderly s.ids.values actions)
    (hrun : expandAll actions context s = .ok out s') :
    Orderly s'.ids.values out ∧ ∀ a ∈ out, a.isExpanded :=
  ⟨(expandAll_ok.1 hrun).orderly [] h, (expandAll_covers hrun).2⟩

end Action

end Expand
end PlanLowering
