import Mathlib.Data.List.Nodup
import PlanLowering.Page.Registry
import PlanLowering.Proofs.Spelling

/-!
# Ids are handed out once

A new id is a stem with the number of its family behind it. No stem ends in a digit, so an id tells
the family and the number it came from, and numbers only grow.
-/

namespace PlanLowering

/-- What an id is asked for. -/
inductive IdRequest where
  | value
  | page (kind : PageKind)
  | label
  | named (stem : String)
  deriving DecidableEq, Repr

namespace IdRequest

def next : IdRequest → FreshIds → Id × FreshIds
  | .value, ids => ids.value
  | .page .data, ids => ids.dataPage
  | .page .code, ids => ids.codePage
  | .label, ids => ids.label
  | .named stem, ids => ids.named stem

def stem : IdRequest → String
  | .value => "r"
  | .page .data => "mem"
  | .page .code => "code_mem"
  | .label => "L"
  | .named stem => stem ++ "_"

/-- Requests for the ids of actions. All others name pages and places in the code. -/
def isForAction : IdRequest → Bool
  | .value => true
  | .label => true
  | _ => false

/-- The number of the next id. -/
def count : IdRequest → FreshIds → Nat
  | .value, ids => ids.values
  | .page _, ids => ids.pages
  | .label, ids => ids.labels
  | .named stem, ids => (ids.stems.get? stem).getD 0

variable {r r' : IdRequest} {ids : FreshIds} {k k' : Nat}

theorem next_fst (r : IdRequest) (ids : FreshIds) :
    (r.next ids).1 = r.stem ++ (r.count ids).repr := by
  cases r with
  | page kind =>
    cases kind <;> simp [next, stem, count, FreshIds.dataPage, FreshIds.codePage, ToString.toString]
  | named s =>
    simp [next, stem, count, FreshIds.named, ToString.toString, String.append_assoc]
  | _ => simp [next, stem, count, FreshIds.value, FreshIds.label, ToString.toString]

theorem count_next (r : IdRequest) (ids : FreshIds) : r.count (r.next ids).2 = r.count ids + 1 := by
  cases r with
  | page kind => cases kind <;> rfl
  | named s => simp [next, count, FreshIds.named]
  | _ => rfl

theorem count_mono (r r' : IdRequest) (ids : FreshIds) : r'.count ids ≤ r'.count (r.next ids).2 := by
  by_cases h : r' = r
  · rw [h, count_next]
    exact Nat.le_succ _
  · rcases r with _ | kind | _ | s
    case page => cases kind <;> cases r' <;> simp [next, count, FreshIds.dataPage, FreshIds.codePage]
    case named =>
      cases r' with
      | named s' =>
        have hs : s' ≠ s := fun hs => h (by rw [hs])
        simp [next, count, FreshIds.named, hs]
      | _ => simp [next, count, FreshIds.named]
    all_goals cases r' <;> simp [next, count, FreshIds.value, FreshIds.label]

theorem stem_last (r : IdRequest) :
    ∃ front last, r.stem.toList = front ++ [last] ∧ ¬ last.isDigit := by
  cases r with
  | value => exact ⟨[], 'r', rfl, by decide⟩
  | page kind =>
    cases kind with
    | data => exact ⟨"me".toList, 'm', rfl, by decide⟩
    | code => exact ⟨"code_me".toList, 'm', rfl, by decide⟩
  | label => exact ⟨[], 'L', rfl, by decide⟩
  | named s => exact ⟨s.toList, '_', by simp [stem], by decide⟩

theorem stem_injective : Function.Injective stem := by
  have hlast : ∀ (s : String) (front : List Char) (last : Char), last ≠ '_' →
      (s ++ "_").toList ≠ front ++ [last] := by
    intro s front last hne heq
    rw [String.toList_append] at heq
    exact hne (List.append_inj_right' heq rfl |> List.singleton_inj.1).symm
  intro r r' h
  replace h := congrArg String.toList h
  rcases r with _ | ⟨_ | _⟩ | _ | s <;> rcases r' with _ | ⟨_ | _⟩ | _ | s'
  case named.named => simpa [stem, String.ext_iff] using h
  case named.value => exact absurd h (hlast s [] 'r' (by decide))
  case named.page.data => exact absurd h (hlast s "me".toList 'm' (by decide))
  case named.page.code => exact absurd h (hlast s "code_me".toList 'm' (by decide))
  case named.label => exact absurd h (hlast s [] 'L' (by decide))
  case value.named => exact absurd h.symm (hlast s' [] 'r' (by decide))
  case page.data.named => exact absurd h.symm (hlast s' "me".toList 'm' (by decide))
  case page.code.named => exact absurd h.symm (hlast s' "code_me".toList 'm' (by decide))
  case label.named => exact absurd h.symm (hlast s' [] 'L' (by decide))
  all_goals simp_all [stem]

/-- An id tells the family and the number it came from. -/
theorem spelled_inj (h : r.stem ++ k.repr = r'.stem ++ k'.repr) : r = r' ∧ k = k' := by
  have hdigits : ∀ {n : Nat} {c : Char}, c ∈ n.repr.toList → c.isDigit := fun hc =>
    Nat.isDigit_of_mem_toDigits (by decide) (by decide) (Nat.toList_repr ▸ hc)
  have hsame : r.stem.toList = r'.stem.toList := by
    obtain ⟨front, last, hstem, hlast⟩ := r.stem_last
    obtain ⟨front', last', hstem', hlast'⟩ := r'.stem_last
    have heq := congrArg String.toList h
    rw [String.toList_append, String.toList_append] at heq
    rcases List.append_eq_append_iff.1 heq with ⟨rest, hrest, hnum⟩ | ⟨rest, hrest, hnum⟩
    all_goals
      rcases List.eq_nil_or_concat rest with rfl | ⟨more, c, rfl⟩
      · simp_all
      · exfalso
        have hc : c.isDigit := hdigits (by rw [hnum]; simp)
        simp only [hstem, hstem', List.concat_eq_append, ← List.append_assoc] at hrest
        have := List.append_inj_right' hrest rfl
        simp_all
  have hr : r = r' := stem_injective (String.ext hsame)
  subst hr
  refine ⟨rfl, repr_injective ?_⟩
  simpa using h

end IdRequest

namespace FreshIds

variable {ids : FreshIds} {id : Id} {r : IdRequest} {requests : List IdRequest}

/-- The ids for a list of requests, in order. -/
def handOut (ids : FreshIds) : List IdRequest → List Id
  | [] => []
  | r :: rest => (r.next ids).1 :: (r.next ids).2.handOut rest

def after (ids : FreshIds) : List IdRequest → FreshIds
  | [] => ids
  | r :: rest => (r.next ids).2.after rest

@[simp] theorem length_handOut (ids : FreshIds) (requests : List IdRequest) :
    (ids.handOut requests).length = requests.length := by
  induction requests generalizing ids with
  | nil => rfl
  | cons r rest ih => simp [handOut, ih]

theorem handOut_append (ids : FreshIds) (requests more : List IdRequest) :
    ids.handOut (requests ++ more) = ids.handOut requests ++ (ids.after requests).handOut more := by
  induction requests generalizing ids with
  | nil => rfl
  | cons r rest ih => simp [handOut, after, ih]

/-- The id was handed out before. -/
def Given (ids : FreshIds) (id : Id) : Prop :=
  ∃ (r : IdRequest) (k : Nat), k < r.count ids ∧ id = r.stem ++ k.repr

theorem next_not_given : ¬ ids.Given (r.next ids).1 := by
  rintro ⟨r', k, hk, h⟩
  rw [IdRequest.next_fst] at h
  obtain ⟨rfl, rfl⟩ := IdRequest.spelled_inj h
  exact Nat.lt_irrefl _ hk

theorem next_given : (r.next ids).2.Given (r.next ids).1 :=
  ⟨r, r.count ids, by rw [IdRequest.count_next]; exact Nat.lt_succ_self _, r.next_fst ids⟩

theorem Given.next (h : ids.Given id) (r : IdRequest) : (r.next ids).2.Given id := by
  obtain ⟨r', k, hk, rfl⟩ := h
  exact ⟨r', k, Nat.lt_of_lt_of_le hk (IdRequest.count_mono r r' ids), rfl⟩

theorem handOut_not_given (h : id ∈ ids.handOut requests) : ¬ ids.Given id := by
  induction requests generalizing ids with
  | nil => simp [handOut] at h
  | cons r rest ih =>
    rcases List.mem_cons.1 h with rfl | h
    · exact next_not_given
    · exact fun hgiven => ih h (hgiven.next r)

theorem handOut_nodup (ids : FreshIds) (requests : List IdRequest) :
    (ids.handOut requests).Nodup := by
  induction requests generalizing ids with
  | nil => exact List.nodup_nil
  | cons r rest ih =>
    exact List.nodup_cons.2 ⟨fun h => handOut_not_given h next_given, ih _⟩

theorem Given.after (h : ids.Given id) (requests : List IdRequest) :
    (ids.after requests).Given id := by
  induction requests generalizing ids with
  | nil => exact h
  | cons r rest ih => exact ih (h.next r)

theorem given_of_handOut (h : id ∈ ids.handOut requests) : (ids.after requests).Given id := by
  induction requests generalizing ids with
  | nil => cases h
  | cons r rest ih =>
    rcases List.mem_cons.1 h with rfl | h
    · exact next_given.after rest
    · exact ih h

/-- No request to come is answered with the id. -/
def Settled (ids : FreshIds) (id : Id) : Prop := ∀ requests, id ∉ ids.handOut requests

theorem mem_handOut_replicate (r : IdRequest) (ids : FreshIds) (n : Nat) :
    r.stem ++ (r.count ids + n).repr ∈ ids.handOut (List.replicate (n + 1) r) := by
  induction n generalizing ids with
  | zero => exact List.mem_cons.2 (.inl (r.next_fst ids).symm)
  | succ n ih =>
    have hlater := ih (r.next ids).2
    rw [IdRequest.count_next, Nat.add_assoc, Nat.add_comm 1 n] at hlater
    exact List.mem_cons_of_mem _ hlater

theorem given_of_not_handOut {k : Nat}
    (h : ∀ n, r.stem ++ k.repr ∉ ids.handOut (List.replicate n r)) :
    ids.Given (r.stem ++ k.repr) := by
  by_contra hnew
  have hle : r.count ids ≤ k := Nat.le_of_not_lt fun hlt => hnew ⟨r, k, hlt, rfl⟩
  obtain ⟨n, rfl⟩ := Nat.exists_eq_add_of_le hle
  exact h _ (mem_handOut_replicate r ids n)

theorem Settled.given {ids' : FreshIds} (h : ids.Settled id) (hgiven : ids'.Given id) :
    ids.Given id := by
  obtain ⟨r, k, _, rfl⟩ := hgiven
  exact given_of_not_handOut fun _ => h _

def Assignable (id : Id) : Prop :=
  ∃ (r : IdRequest) (k : Nat), r.isForAction ∧ id = r.stem ++ k.repr

/-- No action to come is given the id. -/
def Unassigned (ids : FreshIds) (id : Id) : Prop :=
  ∀ requests, (∀ r ∈ requests, r.isForAction) → id ∉ ids.handOut requests

theorem Settled.unassigned (h : ids.Settled id) : ids.Unassigned id := fun requests _ => h requests

theorem Unassigned.given (h : ids.Unassigned id) (hid : Assignable id) : ids.Given id := by
  obtain ⟨r, k, hr, rfl⟩ := hid
  refine given_of_not_handOut fun n => h _ fun r' hr' => ?_
  rwa [List.eq_of_mem_replicate hr']

/-- The ids that were added are new and distinct, and none is forgotten. -/
structure Adds (ids ids' : FreshIds) (new : List Id) : Prop where
  nodup : new.Nodup
  fresh : ∀ id ∈ new, ¬ ids.Given id
  given : ∀ id ∈ new, ids'.Given id
  keeps : ∀ id, ids.Given id → ids'.Given id

section Adds

variable {ids' ids'' : FreshIds} {new more : List Id}

theorem Adds.nil (h : ∀ id, ids.Given id → ids'.Given id) : ids.Adds ids' [] :=
  ⟨List.nodup_nil, by simp, by simp, h⟩

theorem Adds.refl (ids : FreshIds) : ids.Adds ids [] := .nil fun _ => id

theorem Adds.next (r : IdRequest) (ids : FreshIds) : ids.Adds (r.next ids).2 [(r.next ids).1] where
  nodup := List.nodup_singleton _
  fresh := List.forall_mem_singleton.2 next_not_given
  given := List.forall_mem_singleton.2 next_given
  keeps _ h := h.next r

theorem Adds.append (h : ids.Adds ids' new) (h' : ids'.Adds ids'' more) :
    ids.Adds ids'' (new ++ more) where
  nodup := List.nodup_append.2 ⟨h.nodup, h'.nodup, by
    rintro x hx _ hy rfl
    exact h'.fresh x hy (h.given x hx)⟩
  fresh id hid := by
    rcases List.mem_append.1 hid with hid | hid
    · exact h.fresh id hid
    · exact fun hgiven => h'.fresh id hid (h.keeps id hgiven)
  given id hid := by
    rcases List.mem_append.1 hid with hid | hid
    · exact h'.keeps id (h.given id hid)
    · exact h'.given id hid
  keeps id hid := h'.keeps id (h.keeps id hid)

theorem Adds.later (h : ids.Adds ids' new) (h' : ∀ id, ids'.Given id → ids''.Given id) :
    ids.Adds ids'' new := by
  simpa using h.append (.nil h')

theorem Adds.sublist (h : ids.Adds ids' new) (hsub : more.Sublist new) : ids.Adds ids' more :=
  ⟨h.nodup.sublist hsub, fun id hid => h.fresh id (hsub.subset hid),
    fun id hid => h.given id (hsub.subset hid), h.keeps⟩

structure Assigns (ids ids' : FreshIds) (new : List Id) : Prop extends Adds ids ids' new where
  assignable : ∀ id ∈ new, Assignable id

theorem Assigns.nil (h : ∀ id, ids.Given id → ids'.Given id) : ids.Assigns ids' [] :=
  ⟨.nil h, by simp⟩

theorem Assigns.refl (ids : FreshIds) : ids.Assigns ids [] := .nil fun _ => id

theorem Assigns.next (r : IdRequest) (hr : r.isForAction) (ids : FreshIds) :
    ids.Assigns (r.next ids).2 [(r.next ids).1] :=
  ⟨.next r ids, List.forall_mem_singleton.2 ⟨r, _, hr, r.next_fst ids⟩⟩

theorem Assigns.append (h : ids.Assigns ids' new) (h' : ids'.Assigns ids'' more) :
    ids.Assigns ids'' (new ++ more) :=
  ⟨h.toAdds.append h'.toAdds, List.forall_mem_append.2 ⟨h.assignable, h'.assignable⟩⟩

def Extends (ids ids' : FreshIds) (xs ys : List Id) : Prop :=
  ∃ new, ids.Adds ids' new ∧ ys.Perm (xs ++ new)

theorem perm_append_extended {xs ys xs' ys' new new' : List Id} (h : ys.Perm (xs ++ new))
    (h' : ys'.Perm (xs' ++ new')) : (ys ++ ys').Perm (xs ++ xs' ++ (new ++ new')) := by
  refine (h.append h').trans ?_
  rw [List.append_assoc, List.append_assoc]
  exact (List.perm_append_comm_assoc _ _ _).append_left _

theorem perm_trans_extended {xs ys zs new new' : List Id} (h : ys.Perm (xs ++ new))
    (h' : zs.Perm (ys ++ new')) : zs.Perm (xs ++ (new ++ new')) := by
  rw [← List.append_assoc]
  exact h'.trans (h.append_right _)

namespace Extends

variable {xs ys zs xs' ys' : List Id}

theorem append (h : ids.Extends ids' xs ys) (h' : ids'.Extends ids'' xs' ys') :
    ids.Extends ids'' (xs ++ xs') (ys ++ ys') := by
  obtain ⟨new, hnew, hperm⟩ := h
  obtain ⟨new', hnew', hperm'⟩ := h'
  exact ⟨new ++ new', hnew.append hnew', perm_append_extended hperm hperm'⟩

theorem trans (h : ids.Extends ids' xs ys) (h' : ids'.Extends ids'' ys zs) :
    ids.Extends ids'' xs zs := by
  obtain ⟨new, hnew, hperm⟩ := h
  obtain ⟨new', hnew', hperm'⟩ := h'
  exact ⟨new ++ new', hnew.append hnew', perm_trans_extended hperm hperm'⟩

end Extends

end Adds

theorem count_next_le (r r' : IdRequest) (ids : FreshIds) :
    r'.count (r.next ids).2 ≤ r'.count ids + 1 := by
  rcases r with _ | ⟨_ | _⟩ | _ | s
  case named =>
    cases r' with
    | named s' =>
      by_cases hs : s' = s <;> simp [IdRequest.next, IdRequest.count, FreshIds.named, hs]
    | _ => simp [IdRequest.next, IdRequest.count, FreshIds.named]
  all_goals
    cases r' <;> simp [IdRequest.next, IdRequest.count, FreshIds.value, FreshIds.dataPage,
      FreshIds.codePage, FreshIds.label]

theorem count_after_le (r : IdRequest) (ids : FreshIds) (requests : List IdRequest) :
    r.count (ids.after requests) ≤ r.count ids + requests.length := by
  induction requests generalizing ids with
  | nil => exact Nat.le_refl _
  | cons first rest ih =>
    have hrest := ih (first.next ids).2
    have hfirst := count_next_le first r ids
    rw [after, List.length_cons]
    omega

/-- Every request of a history is answered, whatever its family and stem, and no two answers are
the same. No counter passes the number of requests, so as long as there are fewer than `2 ^ 64`
of them each counter fits in a word. -/
theorem history_distinct (requests : List IdRequest) :
    (handOut {} requests).length = requests.length ∧ (handOut {} requests).Nodup ∧
      ∀ r : IdRequest, r.count (after {} requests) ≤ requests.length := by
  refine ⟨length_handOut _ _, handOut_nodup _ _, fun r => ?_⟩
  have hstart : r.count {} = 0 := by
    cases r <;> rfl
  simpa [hstart] using count_after_le r {} requests

end FreshIds
end PlanLowering
