import Mathlib.Logic.Function.Basic
import PlanLowering.Proofs.FirstBlock
import PlanLowering.Proofs.Success
import PlanLowering.Proofs.LoweredTests
import PlanLowering.Proofs.ExpansionShapes

/-!
# Effective addresses under expansion

What stands in front of an expanded access loads constants and adds. Run on any registers, it leads
the base to where the access was meant to reach, unless the value that holds the address is spelled
like the id that the offset is loaded under.
-/

namespace PlanLowering

section Run

variable {width : Nat}

def Immediate.word (symbols : String → BitVec width) : Immediate → BitVec width
  | .value v => .ofInt width v
  | .symbol s => symbols s

def Address.word (symbols values : Id → BitVec width) : Address → BitVec width
  | .page id => symbols id
  | .symbol name => symbols name
  | .value id => values id

def Address.label? : Address → Option Id
  | .page id => some id
  | .symbol name => some name
  | .value _ => none

theorem Address.word_of_label {target : Address} {label : Id} (h : target.label? = some label)
    (symbols values : Id → BitVec width) : target.word symbols values = symbols label := by
  cases target <;> simp_all [label?, word]

/-- What an action computes, of those that load a constant or add two values. -/
def Op.word? (symbols values : Id → BitVec width) : Op → Option (BitVec width)
  | .li v => some (v.word symbols)
  | .arithmetic { op := some "add", src1 := some a, src2 := some b, imm := none } =>
    some (values a + values b)
  | _ => none

def Action.step? (symbols values : Id → BitVec width) : Action → Option (Id → BitVec width)
  | .simple id _ op => (op.word? symbols values).map (Function.update values id)
  | .block .. => none

/-- The values behind a list of actions that all load or add. -/
def Action.run? (symbols values : Id → BitVec width) (actions : List Action) :
    Option (Id → BitVec width) :=
  actions.foldlM (step? symbols) values

/-- The address that an access reaches from its base. -/
def Access.word? (values : Id → BitVec width) (a : Access) : Option (BitVec width) :=
  a.base.map fun base => values base + .ofInt width a.offset

/-- Behind the code an access is at the offset from the memory, whatever registers hold and
wherever symbols are. -/
def Access.Reaches (width : Nat) (code : List Action) (a : Access) (memory : Address)
    (offset : Int) : Prop :=
  ∀ symbols values : Id → BitVec width, ∃ values', Action.run? symbols values code = some values' ∧
    a.word? values' = some (memory.word symbols values + .ofInt width offset)

end Run

namespace Action

variable {width : Nat} {symbols values values' : Id → BitVec width} {code more : List Action}
variable {id base other : Id} {v : Immediate}

@[simp] theorem run?_nil : run? symbols values [] = some values := rfl

@[simp] theorem run?_append : run? symbols values (code ++ more) =
    (run? symbols values code).bind fun values' => run? symbols values' more := by
  simp [run?, List.foldlM_append]

@[simp] theorem run?_li :
    run? symbols values [li id v] = some (Function.update values id (v.word symbols)) := rfl

@[simp] theorem run?_add : run? symbols values [new id (.arithmetic (.binary "add" base other))] =
    some (Function.update values id (values base + values other)) := rfl

/-- Behind what adds an offset to a base, the sum holds both, or twice the offset where this was
loaded over the base. -/
theorem run?_sum {led : Id → BitVec width} (sum base id : Id) (n : Int)
    (hled : run? symbols values code = some led) : ∃ values',
    run? symbols values (code ++ [li id (.value n)] ++
      [new sum (.arithmetic (.binary "add" base id))]) = some values' ∧
    values' sum = (if base = id then .ofInt width n else led base) + .ofInt width n := by
  refine ⟨_, by simp only [run?_append, hled, Option.bind_some, run?_li, run?_add]; rfl, ?_⟩
  by_cases hbase : base = id <;> simp [hbase, Immediate.word]

end Action

def Address.LoadedBy (width : Nat) (target : Address) (code : List Action) (base : Id) : Prop :=
  ∀ symbols values : Id → BitVec width, ∃ values', Action.run? symbols values code = some values' ∧
    values' base = target.word symbols values

/-- The memory of an access once it is settled. It is what was asked for; where nothing was, it is one
more data page, of whole units of 4096 bytes, under a new id. -/
def Address.Settles (flags : PageFlags) (target : Address) (memory : Option Address)
    (s t : State) : Prop :=
  memory = some target ∧ t.pages = s.pages ∨
    memory = none ∧ ∃ page spec, target = .page page ∧ ¬ s.pages.isLabel page ∧
      ¬ s.ids.Given page ∧ t.ids.Given page ∧
      t.pages.entries.entries = s.pages.entries.entries ++ [(page, .data, spec)] ∧
      spec.flags = flags ∧ 4096 ∣ spec.size.toNat ∧ 0 < spec.size.toNat

namespace Address.Settles

variable {flags : PageFlags} {target : Address} {memory : Option Address} {s t u : State}

/-- What goes on behind the settling leaves the pages alone. -/
theorem later (h : target.Settles flags memory s u) (hpages : t.pages = u.pages)
    (hids : ∀ id, u.ids.Given id → t.ids.Given id) : target.Settles flags memory s t := by
  unfold Settles
  rw [hpages]
  refine h.imp_right ?_
  rintro ⟨hmemory, page, spec, htarget, hlabel, hnew, hgiven, hrest⟩
  exact ⟨hmemory, page, spec, htarget, hlabel, hnew, hids page hgiven, hrest⟩

theorem eq_of_some {address : Address} (h : target.Settles flags (some address) s t) :
    address = target := by
  rcases h with ⟨hmemory, _⟩ | ⟨hmemory, _⟩
  · exact Option.some.inj hmemory
  · cases hmemory

theorem of_value {id : Id} (h : (Address.value id).Settles flags memory s t) :
    memory = some (.value id) := by
  rcases h with ⟨hmemory, _⟩ | ⟨_, page, _, htarget, _⟩
  · exact hmemory
  · cases htarget

end Address.Settles

namespace Access

variable {width : Nat} {flags : PageFlags} {memory : Option Address} {offset : Int}
variable {size : Option Nat} {op : Option String} {context : Context} {s t : State} {base page : Id}
variable {before code : List Action} {access a a' : Access} {target : Address} {label : Option Id}

theorem offsetFits_iff : offsetFits offset ↔ -2048 ≤ offset ∧ offset ≤ 2047 := by
  simp [offsetFits]

/-- The value that holds the address is spelled like the next id, which is taken for an offset that
does not fit. -/
def Captured (memory : Option Address) (offset : Int) (ids : FreshIds) : Prop :=
  ¬ offsetFits offset ∧ memory = some (.value ids.value.1)

def Built (memory : Option Address) (offset : Int) (a : Access) : Prop :=
  a.memory = memory ∧ a.offset = offset ∧ a.base = (Access.to memory offset).base

theorem units_of_draw {n : Int} (h : Draw.ones 12 ≤ n ∧ n ≤ Draw.ones 32) :
    4096 ∣ (UInt64.ofNat (max (n.toNat / 4096 * 4096) 4096)).toNat ∧
      0 < (UInt64.ofNat (max (n.toNat / 4096 * 4096) 4096)).toNat := by
  have hones : Draw.ones 32 = 4294967295 := by decide
  have hsmall : max (n.toNat / 4096 * 4096) 4096 < 2 ^ 64 := by omega
  rw [UInt64.toNat_ofNat_of_lt' hsmall]
  omega

theorem reserveNew_ok (h : reserveNew flags context s = .ok page t) :
    (Address.page page).Settles flags none s t := by
  simp only [reserveNew, Lower.bind_ok, Lower.draw_ok, Lower.freshDataPage, Lower.fresh_ok,
    Lower.reserve_ok, Lower.pure_ok] at h
  obtain ⟨n, _, ⟨source, hdraw, rfl⟩, _, _, ⟨rfl, rfl⟩, _, _, ⟨hlabel, rfl⟩, rfl, rfl⟩ := h
  obtain ⟨hunits, hpos⟩ :=
    units_of_draw ((Draw.width_between (by decide) (by decide)).of_ok hdraw)
  refine .inr ⟨rfl, _, _, rfl, hlabel, ?_, ?_, PageRegistry.entries_add hlabel, rfl, hunits, hpos⟩
  · exact FreshIds.next_not_given (r := .page .data)
  · exact FreshIds.next_given (r := .page .data)

theorem anchor_settles (h : a.anchor flags context s = .ok (a', label) t) :
    ∃ target, a'.memory = some target ∧ target.Settles flags a.memory s t ∧
      a'.offset = a.offset ∧ a'.base = a.base ∧ target.label? = label ∧
      (label = none → s = t) := by
  unfold anchor at h
  rcases hmemory : a.memory with _ | ⟨id | name | id⟩
  · simp only [hmemory, Lower.bind_ok, Lower.pure_ok, Prod.mk.injEq] at h
    obtain ⟨page, _, hreserve, ⟨rfl, rfl⟩, rfl⟩ := h
    exact ⟨_, rfl, reserveNew_ok hreserve, rfl, rfl, rfl, by simp⟩
  · simp only [hmemory, Lower.bind_ok, Lower.get_ok] at h
    obtain ⟨_, _, ⟨rfl, rfl⟩, h⟩ := h
    split at h
    · rw [Lower.pure_ok, Prod.mk.injEq] at h
      obtain ⟨⟨rfl, rfl⟩, rfl⟩ := h
      exact ⟨_, hmemory, .inl ⟨rfl, rfl⟩, rfl, rfl, rfl, by simp⟩
    · simp at h
  all_goals
    simp only [hmemory, Lower.pure_ok, Prod.mk.injEq] at h
    obtain ⟨⟨rfl, rfl⟩, rfl⟩ := h
    exact ⟨_, hmemory, .inl ⟨rfl, rfl⟩, rfl, rfl, rfl, by simp⟩

/-- Widening leaves an access that fits alone, and adds any other offset under two new ids. -/
theorem widen_cases (hbase : a.base = some base) (h : a.widen code context s = .ok (before, a') t) :
    (offsetFits a.offset ∧ before = code ∧ a' = a ∨
      ¬ offsetFits a.offset ∧ ∃ sum, a' = { a with base := some sum, offset := 0 } ∧
        before = code ++ [Action.li s.ids.value.1 (.value a.offset)] ++
          [Action.new sum (.arithmetic (.binary "add" base s.ids.value.1))]) ∧
      t.pages = s.pages ∧ ∀ id, s.ids.Given id → t.ids.Given id := by
  obtain ⟨hfits, rfl, rfl, rfl⟩ | ⟨base', _, sum, _, hfits, hbase', hoffset, hsum, rfl, rfl⟩ := widen_ok h
  · exact ⟨.inl ⟨hfits, rfl, rfl⟩, rfl, fun _ => id⟩
  · cases hbase.symm.trans hbase'
    obtain ⟨rfl, rfl⟩ := Lower.fresh_ok.1 hoffset
    obtain ⟨rfl, rfl⟩ := Lower.fresh_ok.1 hsum
    refine ⟨.inr ⟨hfits, _, rfl, by simp⟩, rfl, fun id hid => ?_⟩
    exact (hid.next .value).next .value

/-- Widening keeps what the access reaches unless the offset that does not fit is loaded over the
base. -/
theorem reaches_widened (hwidth : 0 < width) (hbase : a.base = some base)
    (hloads : target.LoadedBy width code base)
    (h : a.widen code context s = .ok (before, a') t) :
    a'.Reaches width before target a.offset ↔ offsetFits a.offset ∨ base ≠ s.ids.value.1 := by
  obtain ⟨⟨hfits, rfl, rfl⟩ | ⟨hfits, sum, rfl, rfl⟩, _⟩ := widen_cases hbase h
  · refine iff_of_true (fun symbols values => ?_) (.inl hfits)
    obtain ⟨values', hrun, hvalue⟩ := hloads symbols values
    exact ⟨values', hrun, by simp [word?, hbase, hvalue]⟩
  · rw [or_iff_right hfits]
    constructor
    · -- a memory at any other address than the offset itself tells that the base is lost
      intro hreaches hlost
      let elsewhere : Id → BitVec width := fun _ => .ofInt width a.offset + 1
      have helsewhere : target.word elsewhere elsewhere = .ofInt width a.offset + 1 := by
        cases target <;> rfl
      obtain ⟨led, hled, _⟩ := hloads elsewhere elsewhere
      obtain ⟨after, hrun, hsum⟩ := Action.run?_sum sum base s.ids.value.1 a.offset hled
      obtain ⟨after', hrun', hafter⟩ := hreaches elsewhere elsewhere
      rw [hrun, Option.some.injEq] at hrun'
      subst hrun'
      rw [if_pos hlost] at hsum
      have hnone : width = 0 := by simpa [word?, hsum, helsewhere] using hafter
      omega
    · intro hkept symbols values
      obtain ⟨led, hled, hvalue⟩ := hloads symbols values
      obtain ⟨after, hrun, hsum⟩ := Action.run?_sum sum base s.ids.value.1 a.offset hled
      rw [if_neg hkept, hvalue] at hsum
      exact ⟨after, hrun, by simp [word?, hsum]⟩

theorem widen_fits (hbase : a.base = some base)
    (h : a.widen code context s = .ok (before, a') t) :
    a'.memory = a.memory ∧ offsetFits a'.offset := by
  obtain ⟨⟨hfits, _, rfl⟩ | ⟨_, sum, rfl, _⟩, _⟩ := widen_cases hbase h
  · exact ⟨rfl, hfits⟩
  · exact ⟨rfl, show offsetFits 0 by decide⟩

/-- Before an access that was built for some memory is widened, its base holds the address of that
memory, loaded under a new id unless a value holds it. -/
theorem expand_leads (hbuilt : a.Built memory offset)
    (h : a.expand flags context s = .ok (before, a') t) :
    ∃ (target : Address) (code : List Action) (base : Id) (u : State) (access : Access),
      target.Settles flags memory s u ∧ (∀ width, target.LoadedBy width code base) ∧
      (base = u.ids.value.1 ↔ memory = some (.value s.ids.value.1)) ∧
      access.base = some base ∧ access.memory = some target ∧ access.offset = offset ∧
      access.widen code context u = .ok (before, a') t := by
  obtain ⟨rfl, rfl, hbase⟩ := hbuilt
  obtain ⟨anchored, label, u, hanchor, hwiden⟩ := expand_ok h
  obtain ⟨target, hmemory, hsettles, hoffset, hbase', hlabel, hkept⟩ := anchor_settles hanchor
  rcases hwiden with ⟨rfl, hwiden⟩ | ⟨name, base, v, rfl, hload, hwiden⟩
  · obtain rfl := hkept rfl
    cases target with
    | value id =>
      have hvalue := hsettles.of_value
      rw [hvalue] at hbase
      exact ⟨_, [], id, s, anchored, hsettles, fun _ _ values => ⟨values, rfl, rfl⟩, by simp [hvalue],
        hbase'.trans hbase, hmemory, hoffset, hwiden⟩
    | _ => cases hlabel
  · have hvalue : a.memory ≠ some (.value s.ids.value.1) := by
      intro hvalue
      rw [hvalue] at hsettles
      cases hsettles.eq_of_some
      cases hlabel
    -- the label is loaded under a new id, which what comes next does not take
    obtain ⟨rfl, rfl⟩ := Lower.fresh_ok.1 hload
    have hloads : ∀ width, target.LoadedBy width [Action.li u.ids.value.1 (.symbol name)] u.ids.value.1 :=
      fun width symbols values =>
        ⟨_, Action.run?_li, by simp [Address.word_of_label hlabel, Immediate.word]⟩
    have hnew : u.ids.value.1 ≠ u.ids.value.2.value.1 := fun hbase =>
      FreshIds.next_not_given (r := .value) (hbase ▸ FreshIds.next_given (r := .value))
    exact ⟨target, _, _, { u with ids := u.ids.value.2 }, { anchored with base := some u.ids.value.1 },
      hsettles.later rfl fun id hid => hid.next .value, hloads, iff_of_false hnew hvalue, rfl, hmemory,
      hoffset, hwiden⟩

/-- Where an access that was built for some memory ends up when it is expanded. -/
theorem expand_lands (hwidth : 0 < width) (hbuilt : a.Built memory offset)
    (h : a.expand flags context s = .ok (before, a') t) : ∃ target,
    a'.memory = some target ∧ target.Settles flags memory s t ∧ offsetFits a'.offset ∧
      (a'.Reaches width before target offset ↔ ¬ Captured memory offset s.ids) := by
  obtain ⟨target, code, base, u, access, hsettles, hloads, hcaptured, hbase, hmemory, rfl, h⟩ :=
    expand_leads hbuilt h
  obtain ⟨_, hpages, hids⟩ := widen_cases hbase h
  obtain ⟨hmemory', hfits⟩ := widen_fits hbase h
  refine ⟨target, hmemory'.trans hmemory, hsettles.later hpages hids, hfits, ?_⟩
  rw [reaches_widened hwidth hbase (hloads width) h, Captured, ← hcaptured, not_and, ne_eq]
  exact or_iff_not_imp_left

theorem expand_unregistered (hmemory : a.memory = some (.page page)) (h : ¬ s.pages.isLabel page) :
    a.expand flags context s = .error (.pageNotFound page) s := by
  have hanchor : a.anchor flags context s = .error (.pageNotFound page) s := by
    simp only [anchor, hmemory]
    show (if s.pages.isLabel page then (pure (a, some page) : Lower (Access × Option Id))
      else throw (.pageNotFound page)) context s = _
    rw [if_neg h]
    rfl
  simp only [expand, bind, ReaderT.bind, EStateM.bind, hanchor]

end Access

/-- Loads and stores. -/
inductive Transfer where
  | load
  | store (value : Option Id)

namespace Transfer

def op : Transfer → Access → Op
  | .load, access => .load access
  | .store value, access => .store access value

/-- Permissions of a page that is reserved for the transfer. -/
def flags : Transfer → PageFlags
  | .load => .read
  | .store _ => .readWrite

variable {context : Context} {s t : State} {e : Expansion} {id page : Id} {access : Access}

theorem expand_ok (transfer : Transfer)
    (h : (Action.new id (transfer.op access)).expand context s = .ok e t) :
    ∃ before access', access.expand transfer.flags context s = .ok (before, access') t ∧
      e.actions = before ++ [.simple id true (transfer.op access')] := by
  rw [Action.new, Action.expand] at h
  cases transfer with
  | load =>
    cases Op.expand_ok h with
    | load haccess => exact ⟨_, _, haccess, Op.behind_actions _ _ _⟩
    | alone halone => cases halone
  | store value =>
    cases Op.expand_ok h with
    | store haccess => exact ⟨_, _, haccess, Op.behind_actions _ _ _⟩
    | alone halone => cases halone

theorem expand_unregistered (transfer : Transfer) (hmemory : access.memory = some (.page page))
    (h : ¬ s.pages.isLabel page) :
    (Action.new id (transfer.op access)).expand context s = .error (.pageNotFound page) s := by
  have herror : access.expand transfer.flags context s = .error (.pageNotFound page) s :=
    Access.expand_unregistered hmemory h
  rw [Action.new, Action.expand]
  cases transfer with
  | load | store value =>
    rw [flags] at herror
    simp only [op, Op.expand, bind, ReaderT.bind, EStateM.bind, herror]

/-- An expanded transfer reaches the memory at its offset, whatever the registers hold before the
code in front of it, unless the value that holds the address is spelled like the id that the offset
is loaded under. What offset remains fits the instruction. Memory that is missing is reserved under
a new id, and a page that is not registered is an error that changes nothing. -/
theorem expand_reaches_iff (transfer : Transfer) (memory : Option Address) (offset : Int)
    (size : Option Nat) (op : Option String) (id : Id) (context : Context) (s : State) :
    (∀ page, memory = some (.page page) → ¬ s.pages.isLabel page →
      (Action.new id (transfer.op { Access.to memory offset with size, op })).expand context s =
        .error (.pageNotFound page) s) ∧
    ∀ e t, (Action.new id (transfer.op { Access.to memory offset with size, op })).expand context s =
        .ok e t →
      ∃ before access target, e.actions = before ++ [.simple id true (transfer.op access)] ∧
        access.memory = some target ∧ target.Settles transfer.flags memory s t ∧
        -2048 ≤ access.offset ∧ access.offset ≤ 2047 ∧
        (access.Reaches (8 * context.environment.xlen.bytes) before target offset ↔
          ¬ Access.Captured memory offset s.ids) := by
  have hbuilt : Access.Built memory offset { Access.to memory offset with size, op } :=
    ⟨rfl, rfl, rfl⟩
  have hwidth : 0 < 8 * context.environment.xlen.bytes := by
    cases context.environment.xlen <;> decide
  refine ⟨fun page hmemory hpage => transfer.expand_unregistered hmemory hpage, fun e t h => ?_⟩
  obtain ⟨before, access, hexpand, hactions⟩ := transfer.expand_ok h
  obtain ⟨target, hmemory, hsettles, hfits, hreaches⟩ := Access.expand_lands hwidth hbuilt hexpand
  obtain ⟨hlow, hhigh⟩ := Access.offsetFits_iff.1 hfits
  exact ⟨before, access, target, hactions, hmemory, hsettles, hlow, hhigh, hreaches⟩

theorem far_store_reaches : (∃ e t before access target,
    (Action.new "x" ((store (some "v")).op (.to none (-5000)))).expand (standardContext .rv64)
      (.start {}) = .ok e t ∧
    e.actions = before ++ [.simple "x" true ((store (some "v")).op access)] ∧
    Address.Settles .readWrite target none (.start {}) t ∧
    access.Reaches 64 before target (-5000)) ∧
    (Action.new "x" (load.op (.to (some (.page "mem7")) 0))).expand (standardContext .rv64)
      (.start {}) = .error (.pageNotFound "mem7") (.start {}) := by
  have hok : ((Action.new "x" ((store (some "v")).op (.to none (-5000)))).expand.result?
      (standardContext .rv64) (.start {})).isSome := by
    rw [State.start_default]
    decide +kernel
  obtain ⟨e, he⟩ := Option.isSome_iff_exists.1 hok
  obtain ⟨t, hrun⟩ := Lower.result?_eq_some.1 he
  obtain ⟨before, access, target, hactions, _, hsettles, _, _, hreaches⟩ :=
    (expand_reaches_iff (.store (some "v")) none (-5000) none none "x" (standardContext .rv64)
      (.start {})).2 e t hrun
  refine ⟨⟨e, t, before, access, target, hrun, hactions, hsettles, hreaches.2 ?_⟩, ?_⟩
  · rintro ⟨_, hmemory⟩
    cases hmemory
  · exact (expand_reaches_iff .load (some (.page "mem7")) 0 none none "x" (standardContext .rv64)
      (.start {})).1 "mem7" rfl (by decide)

/-- The address is in a value that is spelled like the next id. The offset is loaded over it, and the
access goes to twice the offset. -/
theorem captured_load_astray : ∃ e t before access,
    (Action.new "r0" (load.op (.to (some (.value "r1")) 4000))).expand (standardContext .rv64)
      { State.start {} with ids := { values := 1 } } = .ok e t ∧
    e.actions = before ++ [.simple "r0" true (load.op access)] ∧
    ¬ access.Reaches 64 before (.value "r1") 4000 := by
  refine ⟨_, _, [Action.li "r1" (.value 4000),
    Action.new "r2" (.arithmetic (.binary "add" "r1" "r1"))],
    { Access.to (some (.value "r1")) 0 with base := some "r2" }, rfl, rfl, fun hreaches => ?_⟩
  obtain ⟨values, hrun, haddress⟩ := hreaches (fun _ => 0) (fun _ => 0)
  cases hrun
  revert haddress
  decide

end Transfer
end PlanLowering
