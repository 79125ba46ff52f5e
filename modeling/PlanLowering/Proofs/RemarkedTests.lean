import PlanLowering.Proofs.PlainPlans
import PlanLowering.Proofs.ProgramReferences
import PlanLowering.Proofs.RenumberedRoutines
import PlanLowering.Proofs.StepNames

/-!
# Tests with one more comment

A comment takes one value of the supply. What is numbered before it keeps its name, what is numbered
behind it is named one up, and pages are counted apart from values. So a test with a comment put in
becomes the same test under other numbers, with a note in it.
-/

namespace PlanLowering

section Moves

variable {g f f' : Id → Id}

def Access.pages (a : Access) : List Id :=
  match a.memory with
  | some (.page id) => [id]
  | some (.symbol id) => [id]
  | _ => []

def Op.pages : Op → List Id
  | .load access => access.pages
  | .store access _ => access.pages
  | .call target _ => [target]
  | .readPte target => [target.memory]
  | .writePte target => [target.memory]
  | .modifyPte page _ _ => [page]
  | _ => []

theorem Access.mapIds_mapValues (a : Access) (hids : ∀ x ∈ a.ids, f' x = g (f x))
    (hpages : ∀ x ∈ a.pages, g (f x) = f x) : a.mapIds f' = (a.mapIds f).mapValues g := by
  obtain ⟨offset, memory, base, size, op⟩ := a
  simp only [ids, pages, mapIds, mapValues] at hids hpages ⊢
  have hbase : base.map f' = (base.map f).map g := by
    cases base with
    | none => rfl
    | some id => exact congrArg some (hids id (by simp))
  cases memory with
  | none => simp [hbase]
  | some address =>
    have hown : f' address.id = g (f address.id) := hids address.id (by simp)
    cases address with
    | value id =>
      have hown : f' id = g (f id) := hown
      simp [hbase, Address.mapValue, hown]
    | page id | symbol id =>
      have hfixed := hpages id (by simp)
      have hown : f' id = g (f id) := hown
      simp [hbase, Address.mapValue, hown, hfixed]

theorem PteTarget.mapIds_mapValues (t : PteTarget) (hids : ∀ x ∈ t.ids, f' x = g (f x))
    (hmemory : g (f t.memory) = f t.memory) : t.mapIds f' = (t.mapIds f).mapValues g := by
  obtain ⟨memory, level, src⟩ := t
  simp only [ids, mapIds, mapValues] at hids hmemory ⊢
  have hown : f' memory = f memory := (hids memory (by simp)).trans hmemory
  cases src with
  | none => simp [hown]
  | some id => simp [hown, hids id (by simp)]

theorem Op.mapIds_mapValues (op : Op) (hop : op.isSynthetic = false)
    (hids : ∀ x ∈ op.ids, f' x = g (f x)) (hpages : ∀ x ∈ op.pages, g (f x) = f x) :
    op.mapIds f' = (op.mapIds f).mapValues g := by
  cases op with
  | arithmetic a =>
    obtain ⟨opcode, src1, src2, imm⟩ := a
    cases src1 <;> cases src2 <;> simp_all [mapIds, mapValues, ids]
  | load access =>
    exact congrArg load (access.mapIds_mapValues hids hpages)
  | store access value =>
    have haccess := access.mapIds_mapValues (fun x hx => hids x (List.mem_append_right _ hx)) hpages
    cases value with
    | none => simp [mapIds, mapValues, haccess]
    | some id => simp [mapIds, mapValues, haccess, hids id (by simp [ids])]
  | call target base =>
    have htarget : f' target = f target :=
      (hids target (by simp [ids])).trans (hpages target (by simp [pages]))
    cases base with
    | none => simp [mapIds, mapValues, htarget]
    | some id => simp [mapIds, mapValues, htarget, hids id (by simp [ids])]
  | csrWrite w =>
    obtain ⟨csr, how, value, src, direct⟩ := w
    cases src <;> simp_all [mapIds, mapValues, ids, CsrWrite.mapValues]
  | compare relation lhs rhs pass => simp_all [mapIds, mapValues, ids]
  | readPte target => exact congrArg readPte (target.mapIds_mapValues hids (hpages _ (by simp [pages])))
  | writePte target => exact congrArg writePte (target.mapIds_mapValues hids (hpages _ (by simp [pages])))
  | modifyPte page level recursive =>
    have hpage : f' page = f page := (hids page (by simp [ids])).trans (hpages page (by simp [pages]))
    simp [mapIds, mapValues, hpage]
  | moveToT2 | moveFromT2 | jumpToFail => cases hop
  | _ => rfl

namespace Action

def Original : Action → Prop
  | .simple _ expanded op => expanded = false ∧ op.isSynthetic = false
  | .block _ expanded _ _ => expanded = false

def pages : Action → List Id
  | .simple _ _ op => op.pages
  | .block .. => []

/-- The second naming of the action and of what it refers to goes through `g`, which leaves pages as
they are. -/
structure Moves (g f f' : Id → Id) (a : Action) : Prop where
  original : a.Original
  own : f' a.id = g (f a.id)
  refs : ∀ x ∈ a.ids, f' x = g (f x)
  pages : ∀ x ∈ a.pages, g (f x) = f x
  page : a.page?.isSome → g (f a.id) = f a.id

theorem kept_eq_moved {a : Action} (h : a.page? = none) : a.kept f = [a.moved f] := by
  cases a with
  | simple id expanded op =>
    cases op with
    | memory spec => cases h
    | _ => rfl
  | block id expanded owner code =>
    cases owner with
    | codePage spec => cases h
    | assertException => rfl

mutual

theorem kept_renumbered (a : Action) (h : ∀ b ∈ a.postorder, b.Moves g f f') :
    List.Forall₂ (Renumbered g) (a.kept f) (a.kept f') := by
  have hself := h a a.mem_postorder_self
  cases hpage : a.page? with
  | some page =>
    rw [kept_eq_nil.2 (by rw [hpage]; rfl), kept_eq_nil.2 (by rw [hpage]; rfl)]
    exact .nil
  | none =>
    rw [kept_eq_moved hpage, kept_eq_moved hpage]
    refine .cons ?_ .nil
    cases a with
    | simple id expanded op =>
      have hown : f' id = g (f id) := hself.own
      rw [moved, moved, hown, op.mapIds_mapValues hself.original.2 hself.refs hself.pages]
      exact .simple (f id) expanded (op.mapIds f)
    | block id expanded owner code =>
      cases owner with
      | codePage spec => cases hpage
      | assertException cause fault resume =>
        have hown : f' id = g (f id) := hself.own
        rw [moved, moved, hown]
        exact .assertion (f id) expanded cause fault resume
          (keptAll_renumbered code fun b hb => h b (List.mem_append_left _ hb))

theorem keptAll_renumbered (actions : List Action) (h : ∀ b ∈ postorderAll actions, b.Moves g f f') :
    List.Forall₂ (Renumbered g) (keptAll f actions) (keptAll f' actions) := by
  match actions with
  | [] => exact .nil
  | a :: rest =>
    exact List.rel_append (kept_renumbered a fun b hb => h b (List.mem_append_left _ hb))
      (keptAll_renumbered rest fun b hb => h b (List.mem_append_right _ hb))

end

theorem Original.unmarked {a : Action} (h : a.Original) (hpage : a.page? = none) :
    (a.moved f).isPointerLabel = false ∧ (a.moved f).isLabel = false := by
  cases a with
  | simple id expanded op =>
    cases op with
    | label name pointer => cases h.2
    | _ => exact ⟨rfl, rfl⟩
  | block id expanded owner code =>
    cases owner with
    | codePage spec => cases hpage
    | assertException => exact ⟨rfl, rfl⟩

theorem unmarked_of_mem_keptAll {actions : List Action} (h : ∀ b ∈ postorderAll actions, b.Original)
    {b : Action} (hb : b ∈ keptAll f actions) : b.isPointerLabel = false ∧ b.isLabel = false := by
  induction actions with
  | nil => cases hb
  | cons a rest ih =>
    rw [postorderAll, List.forall_mem_append] at h
    rw [keptAll] at hb
    rcases List.mem_append.1 hb with hb | hb
    · cases hpage : a.page? with
      | some page =>
        rw [kept_eq_nil.2 (by rw [hpage]; rfl)] at hb
        cases hb
      | none =>
        rw [kept_eq_moved hpage, List.mem_singleton] at hb
        rw [hb]
        exact (h.1 a a.mem_postorder_self).unmarked hpage
    · exact ih h.2 hb

theorem seam_of_unmarked {front back : List Action}
    (h : ∀ b ∈ front ++ back, b.isPointerLabel = false ∧ b.isLabel = false) : Seam front back where
  loose b hb := (h b (List.mem_append_left _ (List.mem_of_getLast? hb))).1
  entered _ b hb := (h b (List.mem_append_right _ (List.mem_of_mem_head? hb))).2

end Action

end Moves

section Remarked

namespace Action

variable {g f f' : Id → Id} {m : Nat} {note : Action} {top : Bool} {actions actions' : List Action}

/-- A note was put in, among the actions if they may have one at their top, or into a code page that
is nested in them. -/
inductive Remarked (note : Action) : Bool → List Action → List Action → Prop where
  | here {rest} : Remarked note true rest (note :: rest)
  | next {top a rest rest'} (h : Remarked note top rest rest') :
      Remarked note top (a :: rest) (a :: rest')
  | page {top id expanded spec code code' rest} (h : Remarked note true code code') :
      Remarked note top (.block id expanded (.codePage spec) code :: rest)
        (.block id expanded (.codePage spec) code' :: rest)
  | assertion {top id expanded cause fault resume code code' rest} (h : Remarked note false code code') :
      Remarked note top (.block id expanded (.assertException cause fault resume) code :: rest)
        (.block id expanded (.assertException cause fault resume) code' :: rest)

def KeptAlike (m : Nat) (actions actions' : List Action) : Prop :=
  ∃ text, Noted (Renumbered (FreshIds.skip m)) (fun _ _ => True) (notes m false text) actions actions'

theorem KeptAlike.of_forall₂ (h : List.Forall₂ (Renumbered (FreshIds.skip m)) actions actions') :
    KeptAlike m actions actions' := by
  refine ⟨none, ?_⟩
  have hnoted := @Noted.intro _ _ (Renumbered (FreshIds.skip m)) (fun _ _ => True)
    (notes m false none) actions [] actions' [] h .nil trivial
  simpa [notes] using hnoted

theorem KeptAlike.append {xs ys : List Action} (h : KeptAlike m actions actions')
    (hfront : List.Forall₂ (Renumbered (FreshIds.skip m)) xs ys) :
    KeptAlike m (xs ++ actions) (ys ++ actions') := by
  obtain ⟨text, h⟩ := h
  exact ⟨text, h.append_left hfront⟩

theorem KeptAlike.noted (h : KeptAlike m (keptAll f actions) actions')
    (horiginal : ∀ b ∈ postorderAll actions, b.Original) :
    ∃ text, Noted (Renumbered (FreshIds.skip m)) Seam (notes m false text) (keptAll f actions)
      actions' := by
  obtain ⟨text, h⟩ := h
  have hunmarked : ∀ b ∈ keptAll f actions, b.isPointerLabel = false ∧ b.isLabel = false :=
    fun b hb => unmarked_of_mem_keptAll horiginal hb
  generalize keptAll f actions = kept at h hunmarked
  cases h with
  | intro hfront hback _ => exact ⟨text, .intro hfront hback (seam_of_unmarked hunmarked)⟩

theorem notedPage_of_alike {id : Id} {expanded : Bool} {spec : PageSpec} {code code' : List Action}
    (hpage : (Action.block id expanded (.codePage spec) code).Moves (FreshIds.skip m) f f')
    (hcode : KeptAlike m (keptAll f code) (keptAll f' code'))
    (horiginal : ∀ b ∈ postorderAll code, b.Original) :
    NotedPage m (.block (f id) expanded (.codePage spec) (keptAll f code))
      (.block (f' id) expanded (.codePage spec) (keptAll f' code')) := by
  obtain ⟨text, hnoted⟩ := hcode.noted horiginal
  have hnew : expanded = false := hpage.original
  have hfixed : FreshIds.skip m (f id) = f id := hpage.page rfl
  have hown : f' id = f id := hpage.own.trans hfixed
  rw [hnew, hown]
  exact .intro hfixed hnoted

theorem Remarked.keptAll_alike {cid : Id} {text : String}
    (h : Remarked (.new cid (.comment text)) top actions actions') (hnote : f' cid = s!"r{m}")
    (hmoves : ∀ b ∈ postorderAll actions, b.Moves (FreshIds.skip m) f f') :
    (top = true → KeptAlike m (keptAll f actions) (keptAll f' actions')) ∧
      (top = false → List.Forall₂ (Renumbered (FreshIds.skip m)) (keptAll f actions)
        (keptAll f' actions')) := by
  induction h with
  | @here rest =>
    refine ⟨fun _ => ⟨some text, ?_⟩, nofun⟩
    have hmade : keptAll f' (.new cid (.comment text) :: rest) =
        [] ++ notes m false (some text) ++ keptAll f' rest := by
      show [Action.simple (f' cid) false (.comment text)] ++ _ = _
      rw [hnote]
      rfl
    rw [hmade]
    exact @Noted.intro _ _ _ _ _ [] _ [] _ .nil (keptAll_renumbered rest hmoves) trivial
  | @next top a rest rest' _ ih =>
    rw [postorderAll, List.forall_mem_append] at hmoves
    obtain ⟨htop, hnested⟩ := ih hmoves.2
    have ha := kept_renumbered a hmoves.1
    exact ⟨fun h => (htop h).append ha, fun h => List.rel_append ha (hnested h)⟩
  | @page top id expanded spec code code' rest _ ih =>
    rw [postorderAll, List.forall_mem_append] at hmoves
    have hrest := keptAll_renumbered rest hmoves.2
    exact ⟨fun _ => .of_forall₂ hrest, fun _ => hrest⟩
  | @assertion top id expanded cause fault resume code code' rest _ ih =>
    rw [postorderAll, postorder, List.forall_mem_append, List.forall_mem_append,
      List.forall_mem_singleton] at hmoves
    have hcode := (ih hmoves.1.1).2 rfl
    have hown : f' id = FreshIds.skip m (f id) := hmoves.1.2.own
    have hall : List.Forall₂ (Renumbered (FreshIds.skip m))
        (keptAll f (.block id expanded (.assertException cause fault resume) code :: rest))
        (keptAll f' (.block id expanded (.assertException cause fault resume) code' :: rest)) := by
      refine .cons ?_ (keptAll_renumbered rest hmoves.2)
      rw [hown]
      exact .assertion (f id) expanded cause fault resume hcode
    exact ⟨fun _ => .of_forall₂ hall, fun _ => hall⟩

theorem functions_notedPage (order : List Action)
    (hmoves : ∀ a ∈ order, ∀ b ∈ a.postorder, b.Moves (FreshIds.skip m) f f') :
    List.Forall₂ (NotedPage m) (order.filterMap (function? f)) (order.filterMap (function? f')) := by
  induction order with
  | nil => exact .nil
  | cons a rest ih =>
    rw [List.forall_mem_cons] at hmoves
    have hrest := ih hmoves.2
    cases a with
    | simple id expanded op => exact hrest
    | block id expanded owner code =>
      cases owner with
      | assertException => exact hrest
      | codePage spec =>
        have hcode : ∀ b ∈ postorderAll code, b.Moves (FreshIds.skip m) f f' := fun b hb =>
          hmoves.1 b (List.mem_append_left _ hb)
        exact .cons (notedPage_of_alike (hmoves.1 _ (mem_postorder_self _))
          (.of_forall₂ (keptAll_renumbered code hcode)) fun b hb => (hcode b hb).original) hrest

theorem Remarked.functions_notedPage {cid : Id} {text : String}
    (h : Remarked (.new cid (.comment text)) top actions actions') (hnote : f' cid = s!"r{m}")
    (hmoves : ∀ b ∈ postorderAll actions, b.Moves (FreshIds.skip m) f f') :
    List.Forall₂ (NotedPage m) ((postorderAll actions).filterMap (function? f))
      ((postorderAll actions').filterMap (function? f')) := by
  have hkept (order : List Action) (h : ∀ b ∈ postorderAll order, b.Moves (FreshIds.skip m) f f') :
      List.Forall₂ (NotedPage m) ((postorderAll order).filterMap (function? f))
        ((postorderAll order).filterMap (function? f')) :=
    Action.functions_notedPage (postorderAll order) fun a ha b hb =>
      h b (mem_postorderAll_trans order ha hb)
  induction h with
  | @here rest => exact hkept rest hmoves
  | @next top a rest rest' _ ih =>
    rw [postorderAll, List.forall_mem_append] at hmoves
    rw [postorderAll, postorderAll, List.filterMap_append, List.filterMap_append]
    refine List.rel_append ?_ (ih hmoves.2)
    have ha := hkept [a] (by simpa [postorderAll] using hmoves.1)
    simpa [postorderAll] using ha
  | @page top id expanded spec code code' rest hcode ih =>
    rw [postorderAll, postorder, List.forall_mem_append, List.forall_mem_append,
      List.forall_mem_singleton] at hmoves
    simp only [postorderAll, postorder, List.filterMap_append]
    refine List.rel_append (List.rel_append (ih hmoves.1.1) ?_) (hkept rest hmoves.2)
    exact .cons (notedPage_of_alike hmoves.1.2 ((hcode.keptAll_alike hnote hmoves.1.1).1 rfl)
      fun b hb => (hmoves.1.1 b hb).original) .nil
  | @assertion top id expanded cause fault resume code code' rest _ ih =>
    rw [postorderAll, postorder, List.forall_mem_append, List.forall_mem_append] at hmoves
    simp only [postorderAll, postorder, List.filterMap_append]
    exact List.rel_append (List.rel_append (ih hmoves.1.1) .nil) (hkept rest hmoves.2)

inductive Resembles : Action → Action → Prop where
  | same (a : Action) : Resembles a a
  | block (id : Id) (expanded : Bool) (owner : Block) (code code' : List Action) :
      Resembles (.block id expanded owner code) (.block id expanded owner code')

theorem Resembles.id_eq {a a' : Action} (h : Resembles a a') : a'.id = a.id := by
  cases h <;> rfl

theorem Resembles.page?_eq {a a' : Action} (h : Resembles a a') : a'.page? = a.page? := by
  cases h with
  | same => rfl
  | block id expanded owner code code' => cases owner <;> rfl

theorem Resembles.request_eq {a a' : Action} (h : Resembles a a') : a'.request = a.request := by
  rw [request, request, h.page?_eq]

theorem resembles_refl (actions : List Action) : List.Forall₂ Resembles actions actions :=
  List.forall₂_same.2 fun a _ => .same a

theorem Remarked.order {cid : Id} {text : String}
    (h : Remarked (.new cid (.comment text)) top actions actions') :
    Noted Resembles (fun _ _ => True) [.new cid (.comment text)] (postorderAll actions)
      (postorderAll actions') := by
  induction h with
  | @here rest =>
    exact @Noted.intro _ _ _ _ _ [] _ [] _ .nil (resembles_refl (postorderAll rest)) trivial
  | @next top a rest rest' _ ih => exact ih.append_left (resembles_refl a.postorder)
  | page _ ih =>
    exact (ih.append_right (.cons (.block _ _ _ _ _) .nil)).append_right (resembles_refl _)
  | assertion _ ih =>
    exact (ih.append_right (.cons (.block _ _ _ _ _) .nil)).append_right (resembles_refl _)

end Action

end Remarked

section Supply

variable {m : Nat} {supply : FreshIds} {requests : List IdRequest} {id : Id}

namespace FreshIds

theorem skip_of_below (h : Below m id) : skip m id = id :=
  skip_of_ne fun n hn hsame => by
    have := h n hsame
    omega

theorem next_value (h : m ≤ supply.values) (r : IdRequest) :
    (r.next supply.value.2).1 = skip m (r.next supply).1 ∧
      (r.next supply.value.2).2 = (r.next supply).2.value.2 := by
  cases r with
  | value => exact ⟨(skip_value h).symm, rfl⟩
  | page kind =>
    have hname := IdRequest.next_fst (.page kind) supply
    refine ⟨?_, by cases kind <;> rfl⟩
    rw [hname, skip_spelled (by simp), ← hname]
    cases kind <;> rfl
  | label =>
    have hname := IdRequest.next_fst .label supply
    refine ⟨?_, rfl⟩
    rw [hname, skip_spelled (by simp), ← hname]
    rfl
  | named stem =>
    have hname := IdRequest.next_fst (.named stem) supply
    refine ⟨?_, rfl⟩
    rw [hname, skip_spelled (by simp), ← hname]
    rfl

theorem values_next (supply : FreshIds) (r : IdRequest) :
    supply.values ≤ (r.next supply).2.values :=
  IdRequest.count_mono r .value supply

theorem values_after (supply : FreshIds) (requests : List IdRequest) :
    supply.values ≤ (supply.after requests).values := by
  induction requests generalizing supply with
  | nil => exact Nat.le_refl _
  | cons r rest ih => exact Nat.le_trans (supply.values_next r) (ih _)

theorem after_value (supply : FreshIds) (requests : List IdRequest) :
    supply.value.2.after requests = (supply.after requests).value.2 := by
  induction requests generalizing supply with
  | nil => rfl
  | cons r rest ih => rw [after, after, (next_value (Nat.zero_le _) r).2, ih]

theorem handOut_value (h : m ≤ supply.values) (requests : List IdRequest) :
    supply.value.2.handOut requests = (supply.handOut requests).map (skip m) := by
  induction requests generalizing supply with
  | nil => rfl
  | cons r rest ih =>
    obtain ⟨hname, hnext⟩ := next_value h r
    rw [handOut, handOut, List.map_cons, hname, hnext, ih (Nat.le_trans h (supply.values_next r))]

theorem map_skip_handOut (h : (supply.after requests).values ≤ m) :
    (supply.handOut requests).map (skip m) = supply.handOut requests := by
  conv_rhs => rw [← List.map_id (supply.handOut requests)]
  refine List.map_congr_left fun id hid => skip_of_below fun k hk => ?_
  exact Nat.lt_of_lt_of_le ((given_of_handOut hid).below k hk) h

theorem after_append (supply : FreshIds) (requests more : List IdRequest) :
    supply.after (requests ++ more) = (supply.after requests).after more := by
  induction requests generalizing supply with
  | nil => rfl
  | cons r rest ih => exact ih _

theorem skip_handOut_page {r : IdRequest} (hr : r ≠ .value)
    (h : (r, id) ∈ requests.zip (supply.handOut requests)) : skip m id = id := by
  induction requests generalizing supply with
  | nil => simp at h
  | cons first rest ih =>
    rcases List.mem_cons.1 h with hfirst | hrest
    · obtain ⟨rfl, rfl⟩ := Prod.mk.inj hfirst
      rw [IdRequest.next_fst]
      exact skip_spelled hr
    · exact ih hrest

theorem handOut_insert (supply : FreshIds) (requests more : List IdRequest) :
    supply.handOut (requests ++ .value :: more) = supply.handOut requests ++
      s!"r{(supply.after requests).values}" ::
        ((supply.after requests).handOut more).map (skip (supply.after requests).values) := by
  rw [handOut_append, handOut, ← handOut_value (Nat.le_refl _)]
  rfl

theorem after_insert (supply : FreshIds) (requests more : List IdRequest) :
    supply.after (requests ++ .value :: more) = (supply.after (requests ++ more)).value.2 := by
  rw [after_append, after_append, ← after_value]
  rfl

end FreshIds
end Supply

section Claims

variable {cid : Id} {text : String} {order order' : List Action}

namespace State

theorem claim_resembles {a a' : Action} (h : a.Resembles a') (s : State) : s.claim a' = s.claim a := by
  simp only [claim, claimPage, h.request_eq, h.page?_eq]

theorem claims_resemble (h : List.Forall₂ Action.Resembles order order') (s : State) :
    order'.foldl claim s = order.foldl claim s := by
  induction h generalizing s with
  | nil => rfl
  | cons ha _ ih => rw [List.foldl_cons, List.foldl_cons, claim_resembles ha, ih]

theorem claim_skip (s : State) (a : Action) : s.skip.claim a = (s.claim a).skip := by
  unfold claim claimPage Action.request
  cases a.page? with
  | none => rfl
  | some page =>
    obtain ⟨kind, spec⟩ := page
    cases kind <;> rfl

theorem claims_skip (s : State) (order : List Action) :
    order.foldl claim s.skip = (order.foldl claim s).skip := by
  induction order generalizing s with
  | nil => rfl
  | cons a rest ih => rw [List.foldl_cons, List.foldl_cons, claim_skip, ih]

theorem claims_noted
    (h : Noted Action.Resembles (fun _ _ => True) [.new cid (.comment text)] order order') (s : State) :
    order'.foldl claim s = (order.foldl claim s).skip := by
  cases h with
  | @intro pre post pre' post' hpre hpost _ =>
    have hnote (s : State) : [Action.new cid (.comment text)].foldl claim s = s.skip := rfl
    rw [List.foldl_append, List.foldl_append, List.foldl_append, claims_resemble hpre, hnote,
      claims_resemble hpost, claims_skip]

end State

namespace TestCase

variable {test test' : TestCase} {m : Nat} {supply : FreshIds} {x : Id}

theorem ids_resemble (h : List.Forall₂ Action.Resembles order order') :
    order'.map Action.id = order.map Action.id ∧
      order'.map Action.request = order.map Action.request := by
  induction h with
  | nil => exact ⟨rfl, rfl⟩
  | cons ha _ ih => simp [ha.id_eq, ha.request_eq, ih]

theorem ids_noted
    (h : Noted Action.Resembles (fun _ _ => True) [.new cid (.comment text)] test.order test'.order) :
    ∃ pre post, test.ids = pre ++ post ∧ test'.ids = pre ++ cid :: post := by
  unfold ids
  generalize test.order = order at h ⊢
  generalize test'.order = order' at h ⊢
  cases h with
  | @intro pre post pre' post' hpre hpost _ =>
    refine ⟨pre.map Action.id, post.map Action.id, List.map_append, ?_⟩
    simp only [List.map_append, (ids_resemble hpre).1, (ids_resemble hpost).1]
    simp [Action.new, Action.id]

theorem nodup_noted
    (h : Noted Action.Resembles (fun _ _ => True) [.new cid (.comment text)] test.order test'.order)
    (hfresh : cid ∉ test.ids) : test'.ids.Nodup ↔ test.ids.Nodup := by
  obtain ⟨pre, post, hids, hids'⟩ := ids_noted h
  rw [hids] at hfresh ⊢
  rw [hids', List.nodup_middle, List.nodup_cons]
  exact ⟨fun h => h.2, fun h => ⟨hfresh, h⟩⟩

theorem naming_value (hnodup : test.ids.Nodup) (h : m ≤ supply.values) (hx : x ∈ test.ids) :
    test.naming supply.value.2 x = FreshIds.skip m (test.naming supply x) := by
  have hnames : test.ids.map (test.naming supply.value.2) =
      test.ids.map (FreshIds.skip m ∘ test.naming supply) := by
    rw [map_naming hnodup, FreshIds.handOut_value h, ← map_naming hnodup, List.map_map]
  exact List.map_inj_left.1 hnames x hx

theorem skip_naming (hnodup : test.ids.Nodup) (h : (supply.after test.requests).values ≤ m)
    (hx : x ∈ test.ids) : FreshIds.skip m (test.naming supply x) = test.naming supply x := by
  have hnames : test.ids.map (FreshIds.skip m ∘ test.naming supply) =
      test.ids.map (test.naming supply) := by
    rw [← List.map_map, map_naming hnodup, FreshIds.map_skip_handOut h]
  exact List.map_inj_left.1 hnames x hx

theorem skip_naming_page {a : Action} (hnodup : test.ids.Nodup) (ha : a ∈ test.order)
    (hpage : a.page?.isSome) : FreshIds.skip m (test.naming supply a.id) = test.naming supply a.id := by
  have hrequest : a.request ≠ .value := by
    obtain ⟨page, hpage⟩ := Option.isSome_iff_exists.1 hpage
    simp [Action.request, hpage]
  refine @FreshIds.skip_handOut_page m supply test.requests _ _ hrequest ?_
  rw [← map_naming hnodup, ids, requests, List.map_map, List.zip_map', List.mem_map]
  exact ⟨a, ha, rfl⟩

theorem naming_noted
    (h : Noted Action.Resembles (fun _ _ => True) [.new cid (.comment text)] test.order test'.order)
    (hfresh : cid ∉ test.ids) (hnodup : test.ids.Nodup) (supply : FreshIds) :
    supply.after test'.requests = (supply.after test.requests).value.2 ∧
      ∃ m, supply.values ≤ m ∧ m ≤ (supply.after test.requests).values ∧
        test'.naming supply cid = s!"r{m}" ∧
        ∀ x ∈ test.ids, test'.naming supply x = FreshIds.skip m (test.naming supply x) := by
  have hnames₀ := @map_naming supply test hnodup
  have hnames := @map_naming supply test' ((nodup_noted h hfresh).2 hnodup)
  generalize test.naming supply = f at hnames₀ ⊢
  generalize test'.naming supply = f' at hnames ⊢
  unfold ids requests at hnames hnames₀ ⊢
  generalize test.order = order at h hnames₀ ⊢
  generalize test'.order = order' at h hnames ⊢
  cases h with
  | @intro pre post pre' post' hpre hpost _ =>
    obtain ⟨hpreIds, hpreRequests⟩ := ids_resemble hpre
    obtain ⟨hpostIds, hpostRequests⟩ := ids_resemble hpost
    simp only [List.map_append, List.map_cons, List.append_assoc, List.cons_append, List.nil_append,
      hpreIds, hpreRequests, hpostIds, hpostRequests] at hnames hnames₀ ⊢
    generalize hA : pre.map Action.request = A at hnames hnames₀ ⊢
    generalize hB : post.map Action.request = B at hnames hnames₀ ⊢
    have hvalue : (Action.new cid (.comment text)).request = .value := rfl
    have hle : (supply.after A).values ≤ (supply.after (A ++ B)).values := by
      rw [FreshIds.after_append]
      exact FreshIds.values_after _ B
    rw [hvalue, FreshIds.handOut_insert] at hnames
    rw [FreshIds.handOut_append] at hnames₀
    have hlength : (pre.map (f' ∘ Action.id)).length = (supply.handOut A).length := by
      rw [FreshIds.length_handOut, ← hA, List.length_map, List.length_map]
    have hlength₀ : (pre.map (f ∘ Action.id)).length = (supply.handOut A).length := by
      rw [FreshIds.length_handOut, ← hA, List.length_map, List.length_map]
    simp only [List.map_map] at hnames hnames₀
    obtain ⟨hfront, hrest⟩ := List.append_inj hnames hlength
    obtain ⟨hfront₀, hback₀⟩ := List.append_inj hnames₀ hlength₀
    obtain ⟨hnote, hback⟩ := List.cons.inj hrest
    refine ⟨by rw [hvalue, FreshIds.after_insert], (supply.after A).values,
      FreshIds.values_after _ A, hle, hnote, ?_⟩
    intro x hx
    rcases List.mem_append.1 hx with hx | hx
    · obtain ⟨a, ha, rfl⟩ := List.mem_map.1 hx
      have hsame : pre.map (f' ∘ Action.id) =
          pre.map (FreshIds.skip (supply.after A).values ∘ f ∘ Action.id) := by
        rw [hfront, ← List.map_map, hfront₀, FreshIds.map_skip_handOut (Nat.le_refl _)]
      exact List.map_inj_left.1 hsame a ha
    · obtain ⟨a, ha, rfl⟩ := List.mem_map.1 hx
      have hsame : post.map (f' ∘ Action.id) =
          post.map (FreshIds.skip (supply.after A).values ∘ f ∘ Action.id) := by
        rw [hback, ← List.map_map, hback₀]
      exact List.map_inj_left.1 hsame a ha

end TestCase

end Claims

section Batch

/-- What is built from a plan whose references are steps of the scenario. -/
structure TestCase.Sound (test : TestCase) : Prop where
  original : ∀ a ∈ test.order, a.Original
  closed : test.Closed
  pages : ∀ a ∈ test.order, ∀ x ∈ a.pages, ∃ b ∈ test.order, b.id = x ∧ b.page?.isSome

structure TestCase.Remarked (id : Id) (text : String) (test test' : TestCase) : Prop where
  name : test'.name = test.name
  actions : Action.Remarked (.new id (.comment text)) true test.actions test'.actions

/-- Named tests become the same tests and functions under other numbers, but for a note. -/
structure NamedAlike (m : Nat) (x x' : TestCase × (Id → Id)) : Prop where
  kept : (x.1.kept x.2).NotedTest m (x'.1.kept x'.2)
  functions : List.Forall₂ (Action.NotedPage m) (x.1.functions x.2) (x'.1.functions x'.2)

namespace TestCase

variable {test test' : TestCase} {m : Nat} {supply : FreshIds} {id : Id} {text : String}
variable {f' : Id → Id}

theorem Sound.moves (h : test.Sound) (hnodup : test.ids.Nodup)
    (hnames : ∀ x ∈ test.ids, f' x = FreshIds.skip m (test.naming supply x)) :
    ∀ a ∈ test.order, a.Moves (FreshIds.skip m) (test.naming supply) f' := by
  intro a ha
  refine ⟨h.original a ha, hnames _ (List.mem_map_of_mem ha), fun x hx => hnames x (h.closed a ha x hx),
    fun x hx => ?_, fun hpage => skip_naming_page hnodup ha hpage⟩
  obtain ⟨b, hb, rfl, hpage⟩ := h.pages a ha x hx
  exact skip_naming_page hnodup hb hpage

theorem Sound.alike (h : test.Sound) (hnodup : test.ids.Nodup)
    (hnames : ∀ x ∈ test.ids, f' x = FreshIds.skip m (test.naming supply x)) :
    NamedAlike m (test, test.naming supply) (test, f') := by
  have hmoves := h.moves hnodup hnames
  refine ⟨⟨rfl, ?_⟩, Action.functions_notedPage test.order fun a ha b hb =>
    hmoves b (Action.mem_postorderAll_trans test.actions ha hb)⟩
  exact (Action.KeptAlike.of_forall₂ (Action.keptAll_renumbered test.actions hmoves)).noted h.original

theorem Sound.remarked_alike (h : test.Sound) (hnodup : test.ids.Nodup)
    (hremark : test.Remarked id text test') (hnote : f' id = s!"r{m}")
    (hnames : ∀ x ∈ test.ids, f' x = FreshIds.skip m (test.naming supply x)) :
    NamedAlike m (test, test.naming supply) (test', f') := by
  have hmoves := h.moves hnodup hnames
  refine ⟨⟨hremark.name, ?_⟩, hremark.actions.functions_notedPage hnote hmoves⟩
  exact ((hremark.actions.keptAll_alike hnote hmoves).1 rfl).noted h.original

end TestCase

namespace CanonicalBatch

variable {test test' : TestCase} {front back tests : List TestCase} {m : Nat} {supply : FreshIds}
variable {id : Id} {text : String} {context : Context}

theorem namedTests_value (hsound : ∀ test ∈ tests, test.Sound)
    (hnodup : ∀ test ∈ tests, test.ids.Nodup) (h : m ≤ supply.values) :
    List.Forall₂ (NamedAlike m) (namedTests supply tests) (namedTests supply.value.2 tests) := by
  induction tests generalizing supply with
  | nil => exact .nil
  | cons test rest ih =>
    rw [List.forall_mem_cons] at hsound hnodup
    refine .cons (hsound.1.alike hnodup.1 fun x hx => TestCase.naming_value hnodup.1 h hx) ?_
    rw [FreshIds.after_value]
    exact ih hsound.2 hnodup.2 (Nat.le_trans h (supply.values_after test.requests))

theorem namedTests_remarked (hsound : ∀ t ∈ front ++ test :: back, t.Sound)
    (hnodup : ∀ t ∈ front ++ test :: back, t.ids.Nodup) (hremark : test.Remarked id text test')
    (hfresh : id ∉ test.ids) (supply : FreshIds) :
    ∃ m, supply.values ≤ m ∧
      m ≤ (supply.after ((front ++ test :: back).flatMap TestCase.requests)).values ∧
      List.Forall₂ (NamedAlike m) (namedTests supply (front ++ test :: back))
        (namedTests supply (front ++ test' :: back)) := by
  induction front generalizing supply with
  | nil =>
    rw [List.nil_append, List.forall_mem_cons] at hsound hnodup
    obtain ⟨hafter, m, hlow, hhigh, hnote, hnames⟩ :=
      TestCase.naming_noted hremark.actions.order hfresh hnodup.1 supply
    refine ⟨m, hlow, ?_, .cons (hsound.1.remarked_alike hnodup.1 hremark hnote hnames) ?_⟩
    · rw [List.nil_append, List.flatMap_cons, FreshIds.after_append]
      exact Nat.le_trans hhigh (FreshIds.values_after _ _)
    · rw [hafter]
      exact namedTests_value hsound.2 hnodup.2 hhigh
  | cons first front ih =>
    rw [List.cons_append, List.forall_mem_cons] at hsound hnodup
    obtain ⟨m, hlow, hhigh, hrest⟩ := ih hsound.2 hnodup.2 (supply.after first.requests)
    refine ⟨m, Nat.le_trans (supply.values_after first.requests) hlow, ?_, .cons ?_ hrest⟩
    · rw [List.cons_append, List.flatMap_cons, FreshIds.after_append]
      exact hhigh
    · exact hsound.1.alike hnodup.1 fun x hx => (TestCase.skip_naming hnodup.1 hlow hx).symm

theorem ofNamed_alike {named named' : List (TestCase × (Id → Id))}
    (h : List.Forall₂ (NamedAlike m) named named') :
    List.Forall₂ (TestCase.NotedTest m) (ofNamed named).tests (ofNamed named').tests ∧
      List.Forall₂ (Action.NotedPage m) (ofNamed named).functions (ofNamed named').functions := by
  unfold ofNamed
  induction h with
  | nil => exact ⟨.nil, .nil⟩
  | cons hx _ ih => exact ⟨.cons hx.kept ih.1, List.rel_append hx.functions ih.2⟩

/-- Canonicalization of a batch with one comment more ends in the same way, one value ahead. -/
theorem ofTests_remarked (hsound : ∀ t ∈ front ++ test :: back, t.Sound)
    (hremark : test.Remarked id text test') (hfresh : id ∉ test.ids) {s : State} (hpages : s.PagesGiven) :
    ∃ m, EndAlike (State.Ahead m)
      (fun batch batch' : CanonicalBatch =>
        List.Forall₂ (TestCase.NotedTest m) batch.tests batch'.tests ∧
          List.Forall₂ (Action.NotedPage m) batch.functions batch'.functions)
      (ofTests (front ++ test :: back) context s) (ofTests (front ++ test' :: back) context s) := by
  have hids : test'.ids.Nodup ↔ test.ids.Nodup := TestCase.nodup_noted hremark.actions.order hfresh
  have hall : (∀ t ∈ front ++ test' :: back, t.ids.Nodup) ↔
      ∀ t ∈ front ++ test :: back, t.ids.Nodup := by
    simp only [List.forall_mem_append, List.forall_mem_cons, hids]
  by_cases hnodup : ∀ t ∈ front ++ test :: back, t.ids.Nodup
  · obtain ⟨m, -, hhigh, hnamed⟩ := namedTests_remarked hsound hnodup hremark hfresh s.ids
    refine ⟨m, ?_⟩
    rw [ofTests_run hpages hnodup, ofTests_run hpages (hall.2 hnodup)]
    refine .ok (ofNamed_alike hnamed) ⟨?_, ?_⟩
    · rw [State.ids_claims, TestCase.flatMap_requests]
      exact hhigh
    · have horder : Noted Action.Resembles (fun _ _ => True) [.new id (.comment text)]
          ((front ++ test :: back).flatMap TestCase.order)
          ((front ++ test' :: back).flatMap TestCase.order) := by
        simp only [List.flatMap_append, List.flatMap_cons]
        exact (hremark.actions.order.append_right (Action.resembles_refl _)).append_left
          (Action.resembles_refl _)
      exact State.claims_noted horder s
  · refine ⟨0, ?_⟩
    cases hrun : ofTests (front ++ test :: back) context s with
    | ok batch t => exact absurd (ofTests_nodup hrun) hnodup
    | error e t =>
      cases hrun' : ofTests (front ++ test' :: back) context s with
      | ok batch t => exact absurd (hall.1 (ofTests_nodup hrun')) hnodup
      | error e' t' => exact .error

end CanonicalBatch

/-- Two batches of tests are lowered alike: both not at all, or both, and to programs that differ in ids
and comments only. -/
def Program.LoweredAlike (context : Context) (tests tests' : List TestCase) : Prop :=
  EndAlike (fun _ _ => True) Program.Alike (ofTests tests context (.start context.options))
    (ofTests tests' context (.start context.options))

theorem Program.loweredAlike_of_remarked {context : Context} {front back : List TestCase}
    {test test' : TestCase} {id : Id} {text : String}
    (hcatalog : ∀ t ∈ context.catalog.templates, t.Typed)
    (hsound : ∀ t ∈ front ++ test :: back, t.Sound)
    (hremark : test.Remarked id text test') (hfresh : id ∉ test.ids) :
    LoweredAlike context (front ++ test :: back) (front ++ test' :: back) := by
  obtain ⟨m, hcanonical⟩ := @CanonicalBatch.ofTests_remarked test test' front back id text context
    hsound hremark hfresh _ (State.pagesGiven_start context.options)
  have hlowered : EndAlike (State.Ahead m) Alike
      (ofTests (front ++ test :: back) context (.start context.options))
      (ofTests (front ++ test' :: back) context (.start context.options)) := by
    rw [ofTests_eq_ofBatch, ofTests_eq_ofBatch]
    exact EndAlike.bind hcanonical fun _ _ t t' hbatch hstate =>
      ofBatch_lockstep hcatalog hbatch.1 hbatch.2 t t' hstate
  exact hlowered.mono (fun _ _ _ => trivial) fun _ _ h => h

end Batch
end PlanLowering
