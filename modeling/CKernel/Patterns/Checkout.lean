/-
# `CKernel.Patterns.Checkout` — checkout of `design_patterns/finial/order`

`CheckoutCommand::execute` moves its strategy into `ShopService::checkout`, which
validates the order, gives it the strategy, submits it, asks the gateway and lets the
order be paid, or cancels it.  Any of these steps may throw, after those before it.

Validators, strategies, observers and the gateway are virtual functions (`Callback`).
Each answers or throws as it likes at each call: what it does may depend on the rest of
the program and change it (`outside`), and it may act on the order, as an observer does
that cancels it, by the order's members alone, so along their transitions.  It neither
calls the command nor adds observers, which would invalidate the loop over them.

    what no callback reaches, the calls keep                   (`checkout_keeps_command`)
    `checkout` ends well if it goes through                    (`checkout_clean_iff`)
    so a failed call leaves all as it was, or not              (`fails_cleanly_iff`)
    a paid order: the next call has a null strategy            (`paid_order_loses_pricing`)
-/
import CKernel.Lib.Throws

namespace CKernel.Patterns.Checkout

open Throws

/-! ## The code -/

/-- What is thrown: one of the two exceptions of the code, or another one. -/
inductive Thrown where
  | logicError (what : String)
  | runtimeError (what : String)
  | other (what : String)
  deriving DecidableEq, Repr

/-- How a call ends that does not return. -/
inductive Fault where
  | threw (e : Thrown)
  /-- `pricing_->calculate` of a null `pricing_` -/
  | nullPricing
  deriving DecidableEq, Repr

inductive OrderState where
  | draft
  | awaitingPayment
  | paid
  | shipped
  | cancelled
  deriving DecidableEq, Repr

namespace OrderState

def name : OrderState → String
  | .draft => "草稿"
  | .awaitingPayment => "待支付"
  | .paid => "已支付"
  | .shipped => "已发货"
  | .cancelled => "已取消"

/-- The states that `submit`, `pay`, `ship` and `cancel` make of one. -/
def successors : OrderState → List OrderState
  | .draft => [.awaitingPayment, .cancelled]
  | .awaitingPayment => [.paid, .cancelled]
  | .paid => [.shipped, .cancelled]
  | .shipped => []
  | .cancelled => []

/-- Any number of transitions. -/
def Moves : OrderState → OrderState → Prop :=
  Relation.ReflTransGen fun state next => next ∈ state.successors

end OrderState

/-- What a callback can change: the state and the strategy of the order, and what is
outside.  `S` is the type of the strategy objects. -/
structure Reach (S γ : Type) where
  state : OrderState
  pricing : Option S
  outside : γ

/-- A virtual function, called: it returns or throws, and moves the order. -/
structure Callback (S γ β : Type) where
  run : Reach S γ → Except Thrown β × Reach S γ
  moves : ∀ r : Reach S γ, r.state.Moves (run r).2.state

/-- A callback that only answers. -/
def Callback.answer {S γ β : Type} (x : Except Thrown β) : Callback S γ β :=
  ⟨fun r => (x, r), fun _ => .refl⟩

/-- `PricingStrategy`; `α` is `double`. -/
class PricingStrategy (α γ S : Type) where
  calculate : S → α → Callback S γ α

/-- `onStateChanged(orderId, state)` -/
abbrev OrderObserver (S γ : Type) := String → String → Callback S γ Unit

variable {α S γ : Type}

structure OrderItem (α : Type) where
  name : String
  quantity : Int
  unitPrice : α
  stock : Int

/-- An order; its `unique_ptr` to a strategy may be null. -/
structure Order (α S γ : Type) where
  id : String
  items : List (OrderItem α)
  state : OrderState
  pricing : Option S
  observers : List (OrderObserver S γ)

/-- `originalAmount()` -/
def Order.originalAmount [Add α] [Mul α] [IntCast α] [OfScientific α] (order : Order α S γ) : α :=
  order.items.foldl (fun result item => result + item.quantity * item.unitPrice) 0.0

/-- The `check` of one `OrderValidator`. -/
abbrev Check (α S γ : Type) := Order α S γ → Callback S γ Unit

def nonEmptyValidator : Check α S γ := fun order =>
  .answer (if order.items.isEmpty then .error (.runtimeError "购物车不能为空") else .ok ())

def stockValidator : Check α S γ := fun order =>
  .answer (order.items.forM fun item =>
    if item.quantity ≤ 0 || item.quantity > item.stock then
      .error (.runtimeError (item.name ++ " 库存不足或数量非法"))
    else .ok ())

/-- A call of the gateway, and its answer. -/
structure Payment (α : Type) where
  orderId : String
  amount : α
  answer : Except Thrown Bool

/-- `pay(orderId, amount)` -/
abbrev PaymentGateway (α S γ : Type) := String → α → Callback S γ Bool

/-- A shop; the validators from the first one along `next_`. -/
structure ShopService (α S γ : Type) where
  validator : List (Check α S γ)
  gateway : PaymentGateway α S γ

structure CheckoutCommand (S : Type) where
  pricing : Option S
  executed : Bool

/-- The order, the command, the calls that the gateway has had, and what is outside. -/
structure World (α S γ : Type) where
  order : Order α S γ
  command : CheckoutCommand S
  payments : List (Payment α)
  outside : γ

abbrev Shopping (α S γ β : Type) := EStateM Fault (World α S γ) β

/-- The world after a callback. -/
def World.reached (w : World α S γ) (r : Reach S γ) : World α S γ :=
  { w with order := { w.order with state := r.state, pricing := r.pricing }, outside := r.outside }

/-- A virtual call. -/
def call {β : Type} (f : Callback S γ β) : Shopping α S γ β := fun w =>
  match f.run ⟨w.order.state, w.order.pricing, w.outside⟩ with
  | (.ok b, r) => .ok b (w.reached r)
  | (.error e, r) => .error (.threw e) (w.reached r)

def setState (state : OrderState) (w : World α S γ) : World α S γ :=
  { w with order := { w.order with state } }

def setPricing (pricing : Option S) (w : World α S γ) : World α S γ :=
  { w with order := { w.order with pricing } }

/-- `validate(order)` of a chain. -/
def validate : List (Check α S γ) → Shopping α S γ Unit
  | [] => pure ()
  | check :: next => do
      let w ← get
      call (check w.order)
      validate next

/-- `for (auto *observer : observers_) observer->onStateChanged(id_, state_->name())` -/
def notify : List (OrderObserver S γ) → Shopping α S γ Unit
  | [] => pure ()
  | observer :: observers => do
      let w ← get
      call (observer w.order.id w.order.state.name)
      notify observers

def transitionTo (next : OrderState) : Shopping α S γ Unit := do
  modify (setState next)
  let w ← get
  notify w.order.observers

def submit : Shopping α S γ Unit := do
  let w ← get
  match w.order.state with
  | .draft => transitionTo .awaitingPayment
  | _ => throw (.threw (.logicError "当前状态不能提交"))

def pay : Shopping α S γ Unit := do
  let w ← get
  match w.order.state with
  | .awaitingPayment => transitionTo .paid
  | _ => throw (.threw (.logicError "当前状态不能支付"))

def cancel : Shopping α S γ Unit := do
  let w ← get
  match w.order.state with
  | .draft | .awaitingPayment | .paid => transitionTo .cancelled
  | _ => throw (.threw (.logicError "当前状态不能取消"))

/-- `gateway_.pay(order.id(), amount)`, written down in `payments`. -/
def payThrough (shop : ShopService α S γ) (amount : α) : Shopping α S γ Bool := fun w =>
  match (shop.gateway w.order.id amount).run ⟨w.order.state, w.order.pricing, w.outside⟩ with
  | (answer, r) =>
      let w := { w.reached r with payments := w.payments ++ [⟨w.order.id, amount, answer⟩] }
      match answer with
      | .ok accepted => .ok accepted w
      | .error e => .error (.threw e) w

section Amounts
variable [Add α] [Mul α] [IntCast α] [OfScientific α] [PricingStrategy α γ S]

def payableAmount : Shopping α S γ α := do
  let w ← get
  match w.order.pricing with
  | none => throw .nullPricing
  | some pricing => call (PricingStrategy.calculate pricing w.order.originalAmount)

def checkout (shop : ShopService α S γ) (pricing : Option S) : Shopping α S γ Unit := do
  validate shop.validator
  modify (setPricing pricing)
  let _ ← payableAmount -- printed, beside the original amount
  submit
  let amount ← payableAmount
  let accepted ← payThrough shop amount
  if !accepted then
    cancel
    throw (.threw (.runtimeError "支付失败"))
  pay

/-- `execute()`; the parameter of `checkout` takes the strategy before the body runs. -/
def execute (shop : ShopService α S γ) : Shopping α S γ Unit := do
  let w ← get
  if w.command.executed then throw (.threw (.logicError "命令不能重复执行"))
  modify fun w => { w with command := { w.command with pricing := none } }
  checkout shop w.command.pricing
  modify fun w => { w with command := { w.command with executed := true } }

end Amounts

/-! ## What the results say -/

/-- The gateway was asked, and declined. -/
def Declined (w w' : World α S γ) : Prop :=
  ∃ payment, w'.payments = w.payments ++ [payment] ∧ payment.answer = .ok false

/-- What a call that fails should leave as it was. -/
structure Unharmed (w w' : World α S γ) : Prop where
  state : w'.order.state = w.order.state
  pricing : w'.order.pricing = w.order.pricing
  uncharged : w'.payments = w.payments
  held : w'.command.pricing = w.command.pricing

variable {shop : ShopService α S γ} {w w' v : World α S γ} {e : Thrown} {amount : α}

/-! ## What no callback reaches -/

/-- The command, and the calls of the gateway. -/
def World.aside (w : World α S γ) : CheckoutCommand S × List (Payment α) := (w.command, w.payments)

theorem call_keeps {β : Type} (f : Callback S γ β) :
    Keeps World.aside (call f : Shopping α S γ β) := by
  intro v
  rw [call]
  split
  · rfl
  · rfl

theorem validate_keeps (validators : List (Check α S γ)) :
    Keeps World.aside (validate validators) := by
  induction validators with
  | nil => exact fun _ => rfl
  | cons check next ih => exact .bind .get fun _ => .bind (call_keeps _) fun _ => ih

theorem notify_keeps (observers : List (OrderObserver S γ)) :
    Keeps World.aside (notify observers : Shopping α S γ Unit) := by
  induction observers with
  | nil => exact fun _ => rfl
  | cons observer observers ih => exact .bind .get fun _ => .bind (call_keeps _) fun _ => ih

theorem transitionTo_keeps (next : OrderState) :
    Keeps World.aside (transitionTo next : Shopping α S γ Unit) :=
  .bind (.modify fun _ => rfl) fun _ => .bind .get fun _ => notify_keeps _

theorem submit_keeps : Keeps World.aside (submit : Shopping α S γ Unit) := by
  refine .bind .get fun v => ?_
  split
  · exact transitionTo_keeps _
  · exact .throw _

theorem pay_keeps : Keeps World.aside (pay : Shopping α S γ Unit) := by
  refine .bind .get fun v => ?_
  split
  · exact transitionTo_keeps _
  · exact .throw _

theorem cancel_keeps : Keeps World.aside (cancel : Shopping α S γ Unit) := by
  refine .bind .get fun v => ?_
  split
  · exact transitionTo_keeps _
  · exact transitionTo_keeps _
  · exact transitionTo_keeps _
  · exact .throw _

theorem payThrough_keeps_command (amount : α) :
    Keeps World.command (payThrough shop amount) := by
  intro v
  rw [payThrough]
  split
  dsimp only
  split
  · rfl
  · rfl

/-! ## Exceptions -/

/-- The part dereferences no null strategy. -/
def NeverNull {β : Type} (x : Shopping α S γ β) : Prop := ∀ w w', x w ≠ .error .nullPricing w'

theorem NeverNull.bind {β δ : Type} {x : Shopping α S γ β} {g : β → Shopping α S γ δ}
    (hx : NeverNull x) (hg : ∀ b, NeverNull (g b)) : NeverNull (x >>= g) := by
  intro w w' h
  cases hw : x w with
  | ok b v => exact hg b v w' ((bind_of_ok hw).symm.trans h)
  | error e v =>
      cases (bind_of_error hw).symm.trans h
      exact hx w w' hw

theorem neverNull_get : NeverNull (get : Shopping α S γ (World α S γ)) := fun _ _ h => nomatch h

theorem neverNull_modify (u : World α S γ → World α S γ) :
    NeverNull (modify u : Shopping α S γ PUnit) := fun _ _ h => nomatch h

theorem neverNull_throw {β : Type} (e : Thrown) :
    NeverNull (throw (.threw e) : Shopping α S γ β) := fun _ _ h => nomatch h

theorem neverNull_call {β : Type} (f : Callback S γ β) :
    NeverNull (call f : Shopping α S γ β) := by
  intro w w' h
  rw [call] at h
  split at h
  · cases h
  · cases h

theorem neverNull_validate (validators : List (Check α S γ)) : NeverNull (validate validators) := by
  induction validators with
  | nil => exact fun _ _ h => nomatch h
  | cons check next ih => exact neverNull_get.bind fun _ => (neverNull_call _).bind fun _ => ih

theorem neverNull_notify (observers : List (OrderObserver S γ)) :
    NeverNull (notify observers : Shopping α S γ Unit) := by
  induction observers with
  | nil => exact fun _ _ h => nomatch h
  | cons observer observers ih =>
      exact neverNull_get.bind fun _ => (neverNull_call _).bind fun _ => ih

theorem neverNull_transitionTo (next : OrderState) :
    NeverNull (transitionTo next : Shopping α S γ Unit) :=
  (neverNull_modify _).bind fun _ => neverNull_get.bind fun _ => neverNull_notify _

theorem neverNull_cancel : NeverNull (cancel : Shopping α S γ Unit) := by
  refine neverNull_get.bind fun v => ?_
  split
  · exact neverNull_transitionTo _
  · exact neverNull_transitionTo _
  · exact neverNull_transitionTo _
  · exact neverNull_throw _

/-! ## A declined payment -/

/-- A cancelled order stays cancelled. -/
theorem OrderState.Moves.of_cancelled {state : OrderState}
    (h : OrderState.Moves .cancelled state) : state = .cancelled := by
  induction h with
  | refl => rfl
  | tail _ hnext ih =>
      rw [ih] at hnext
      cases hnext

theorem call_cancelled {β : Type} {f : Callback S γ β} (h : v.order.state = .cancelled) :
    (left (call f v)).order.state = .cancelled := by
  have hmoves := f.moves ⟨v.order.state, v.order.pricing, v.outside⟩
  rw [show (Reach.mk v.order.state v.order.pricing v.outside).state = _ from h] at hmoves
  have hstate := hmoves.of_cancelled
  rw [call]
  split
  case h_1 hrun =>
    rw [hrun] at hstate
    exact hstate
  case h_2 hrun =>
    rw [hrun] at hstate
    exact hstate

theorem notify_cancelled {observers : List (OrderObserver S γ)} (h : v.order.state = .cancelled) :
    (left (notify observers v)).order.state = .cancelled := by
  induction observers generalizing v with
  | nil => exact h
  | cons observer observers ih =>
      rw [notify, get_bind]
      have hcall := @call_cancelled _ _ _ v _ (observer v.order.id v.order.state.name) h
      cases hrun : call (observer v.order.id v.order.state.name) v with
      | ok b v' =>
          rw [hrun] at hcall
          rw [bind_of_ok hrun]
          exact ih hcall
      | error e v' =>
          rw [hrun] at hcall
          rw [bind_of_error hrun]
          exact hcall

/-- An order that is asked to cancel ends cancelled, if it was not shipped. -/
theorem cancel_state : (left (cancel v)).order.state = .cancelled ↔ v.order.state ≠ .shipped := by
  have htransition : (left (transitionTo .cancelled v)).order.state = .cancelled := by
    rw [transitionTo, modify_bind, get_bind]
    exact notify_cancelled rfl
  rw [cancel, get_bind]
  cases hstate : v.order.state with
  | draft => exact iff_of_true htransition nofun
  | awaitingPayment => exact iff_of_true htransition nofun
  | paid => exact iff_of_true htransition nofun
  | shipped => exact iff_of_false (fun h => nomatch hstate.symm.trans h) fun h => h rfl
  | cancelled => exact iff_of_true hstate nofun

theorem not_declined (h : w'.payments = w.payments) : ¬ Declined w w' := by
  rintro ⟨payment, hpayment, -⟩
  rw [h] at hpayment
  exact List.cons_ne_nil _ _ (List.self_eq_append_right.mp hpayment)

/-- Whether the gateway declined is said by its answer. -/
theorem declined_iff {payment : Payment α} (h : w'.payments = w.payments ++ [payment]) :
    Declined w w' ↔ payment.answer = .ok false := by
  constructor
  · rintro ⟨payment', hpayment, hanswer⟩
    rw [h] at hpayment
    rwa [(List.cons.inj (List.append_cancel_left hpayment)).1]
  · intro hanswer
    exact ⟨payment, h, hanswer⟩

/-! ## Ending well -/

/-- The part returns, or throws with a payment declined since `w`; and where one was
declined, the order is cancelled. -/
def Clean (w : World α S γ) (x : Shopping α S γ Unit) (v : World α S γ) : Prop :=
  Ends x v (fun _ w' => Declined w w' → w'.order.state = .cancelled) fun e w' =>
    e ≠ .nullPricing ∧ Declined w w' ∧ w'.order.state = .cancelled

/-- A part that asks no gateway has to return. -/
theorem clean_bind {β : Type} {x : Shopping α S γ β} {g : β → Shopping α S γ Unit}
    (hx : Keeps World.aside x) (hv : v.payments = w.payments) :
    Clean w (x >>= g) v ↔ Returns x v fun b v' => Clean w (g b) v' := by
  refine ends_bind fun e v' h hclean => ?_
  have hsame : v'.payments = v.payments := congrArg Prod.snd (hx.of_error h)
  exact not_declined (hsame.trans hv) hclean.2.1

theorem payments_of_ok {β : Type} {x : Shopping α S γ β} {b : β} (hx : Keeps World.aside x)
    (h : x v = .ok b w') : w'.payments = v.payments :=
  congrArg Prod.snd (hx.of_ok h)

theorem clean_modify {u : World α S γ → World α S γ} {g : PUnit → Shopping α S γ Unit} :
    Clean w (modify u >>= g) v ↔ Clean w (g ⟨⟩) (u v) := by
  rw [Clean, Clean, Ends, Ends, modify_bind]

theorem submit_clean_iff {g : Unit → Shopping α S γ Unit} (hv : v.payments = w.payments) :
    Clean w (submit >>= g) v ↔ v.order.state = .draft ∧
      Returns (transitionTo .awaitingPayment) v fun _ v' => Clean w (g ()) v' := by
  rw [clean_bind submit_keeps hv]
  have herror {e : Fault} (hstate : v.order.state ≠ .draft) (h : submit v = .error e v) :
      (Returns submit v fun b v' => Clean w (g b) v') ↔ v.order.state = .draft ∧
        Returns (transitionTo .awaitingPayment) v fun _ v' => Clean w (g ()) v' :=
    iff_of_false (not_returns_of_error h) fun hand => hstate hand.1
  have hsubmit := @submit.eq_1 α S γ
  cases hstate : v.order.state with
  | draft => rw [and_iff_right rfl, Returns, Returns, Ends, Ends, hsubmit, get_bind, hstate]
  | awaitingPayment =>
      exact hstate ▸ herror (by rw [hstate]; decide) (by rw [hsubmit, get_bind, hstate]; rfl)
  | paid =>
      exact hstate ▸ herror (by rw [hstate]; decide) (by rw [hsubmit, get_bind, hstate]; rfl)
  | shipped =>
      exact hstate ▸ herror (by rw [hstate]; decide) (by rw [hsubmit, get_bind, hstate]; rfl)
  | cancelled =>
      exact hstate ▸ herror (by rw [hstate]; decide) (by rw [hsubmit, get_bind, hstate]; rfl)

/-- The end of `checkout`. -/
def settle (shop : ShopService α S γ) (amount : α) : Shopping α S γ Unit := do
  let accepted ← payThrough shop amount
  if !accepted then
    cancel
    throw (.threw (.runtimeError "支付失败"))
  pay

/-- What the end of `checkout` needs of the gateway: it accepts, and the order waits for
the payment then, and its observers return when they are told of it; or it declines, and
the order has not been shipped. -/
def Settles (shop : ShopService α S γ) (amount : α) (w : World α S γ) : Prop :=
  match (shop.gateway w.order.id amount).run ⟨w.order.state, w.order.pricing, w.outside⟩ with
  | (.error _, _) => False
  | (.ok true, r) => r.state = .awaitingPayment ∧
      Returns (transitionTo .paid) { w.reached r with
        payments := w.payments ++ [⟨w.order.id, amount, .ok true⟩] } fun _ _ => True
  | (.ok false, r) => r.state ≠ .shipped

/-- Another answer than a refusal declines nothing, whatever is done after it. -/
theorem clean_of_accepted {x : Shopping α S γ Unit} {payment : Payment α}
    (hx : Keeps World.aside x) (hv : v.payments = w.payments ++ [payment])
    (hanswer : payment.answer ≠ .ok false) : Clean w x v ↔ Returns x v fun _ _ => True := by
  have hnot : ∀ v', v'.payments = v.payments → ¬ Declined w v' := fun v' hsame hdeclined =>
    hanswer ((declined_iff (hsame.trans hv)).mp hdeclined)
  cases h : x v with
  | ok b v' =>
      rw [returns_of_ok h, Clean, ends_of_ok h]
      exact iff_of_true (fun hdeclined => (hnot v' (payments_of_ok hx h) hdeclined).elim) trivial
  | error e v' =>
      have hsame : v'.payments = v.payments := congrArg Prod.snd (hx.of_error h)
      rw [Clean, ends_of_error h]
      exact iff_of_false (fun hclean => hnot v' hsame hclean.2.1) (not_returns_of_error h)

theorem pay_returns_iff : (Returns pay v fun _ _ => True) ↔ v.order.state = .awaitingPayment ∧
    Returns (transitionTo .paid) v fun _ _ => True := by
  have herror {e : Fault} (hstate : v.order.state ≠ .awaitingPayment)
      (h : pay v = .error e v) : (Returns pay v fun _ _ => True) ↔
        v.order.state = .awaitingPayment ∧ Returns (transitionTo .paid) v fun _ _ => True :=
    iff_of_false (not_returns_of_error h) fun hand => hstate hand.1
  have hpay := @pay.eq_1 α S γ
  cases hstate : v.order.state with
  | awaitingPayment =>
      rw [and_iff_right rfl, Returns, Returns, Ends, Ends, hpay, get_bind, hstate]
  | draft =>
      exact hstate ▸ herror (by rw [hstate]; decide) (by rw [hpay, get_bind, hstate]; rfl)
  | paid =>
      exact hstate ▸ herror (by rw [hstate]; decide) (by rw [hpay, get_bind, hstate]; rfl)
  | shipped =>
      exact hstate ▸ herror (by rw [hstate]; decide) (by rw [hpay, get_bind, hstate]; rfl)
  | cancelled =>
      exact hstate ▸ herror (by rw [hstate]; decide) (by rw [hpay, get_bind, hstate]; rfl)

/-- A refusal: the order is asked to cancel, and something is thrown. -/
theorem clean_of_declined {payment : Payment α} (hv : v.payments = w.payments ++ [payment])
    (hanswer : payment.answer = .ok false) {k : Unit → Shopping α S γ Unit} :
    Clean w (cancel >>= fun _ => throw (.threw e) >>= k) v ↔ v.order.state ≠ .shipped := by
  rw [← cancel_state]
  cases h : cancel v with
  | ok b v' =>
      have hdeclined : Declined w v' :=
        (declined_iff ((payments_of_ok cancel_keeps h).trans hv)).mpr hanswer
      have hthrow : (cancel >>= fun _ => throw (.threw e) >>= k) v = .error (.threw e) v' :=
        bind_of_ok h
      rw [Clean, ends_of_error hthrow, left_ok]
      exact ⟨fun hclean => hclean.2.2, fun hstate => ⟨nofun, hdeclined, hstate⟩⟩
  | error e v' =>
      have hsame : v'.payments = v.payments := congrArg Prod.snd (cancel_keeps.of_error h)
      have hdeclined : Declined w v' := (declined_iff (hsame.trans hv)).mpr hanswer
      rw [Clean, ends_of_error (bind_of_error h), left_error]
      refine ⟨fun hclean => hclean.2.2, fun hstate => ⟨?_, hdeclined, hstate⟩⟩
      rintro rfl
      exact neverNull_cancel v v' h

theorem settle_clean_iff (hv : v.payments = w.payments) :
    Clean w (settle shop amount) v ↔ Settles shop amount v := by
  rw [Settles]
  split
  case h_1 e r hrun =>
    have herror : payThrough shop amount v = .error (.threw e) { v.reached r with
        payments := v.payments ++ [⟨v.order.id, amount, .error e⟩] } := by
      rw [payThrough, hrun]
    refine iff_of_false (fun hclean => ?_) id
    have hdeclined := ((ends_of_error (bind_of_error herror)).mp hclean).2.1
    cases (declined_iff (congrArg (· ++ _) hv)).mp hdeclined
  case h_2 r hrun =>
    have hok : payThrough shop amount v = .ok true { v.reached r with
        payments := v.payments ++ [⟨v.order.id, amount, .ok true⟩] } := by
      rw [payThrough, hrun]
    have hsettle : Clean w (settle shop amount) v ↔ Clean w pay { v.reached r with
        payments := v.payments ++ [⟨v.order.id, amount, .ok true⟩] } := by
      rw [Clean, Clean, Ends, Ends, settle, bind_of_ok hok]
      rfl
    have hanswer : (Except.ok true : Except Thrown Bool) ≠ .ok false := by
      intro heq
      cases heq
    rw [hsettle, clean_of_accepted pay_keeps (congrArg (· ++ _) hv) hanswer, pay_returns_iff]
    rfl
  case h_3 r hrun =>
    have hok : payThrough shop amount v = .ok false { v.reached r with
        payments := v.payments ++ [⟨v.order.id, amount, .ok false⟩] } := by
      rw [payThrough, hrun]
    have hsettle : Clean w (settle shop amount) v ↔
        Clean w (cancel >>= fun _ =>
            throw (.threw (.runtimeError "支付失败")) >>= fun _ : Unit => pay)
          { v.reached r with payments := v.payments ++ [⟨v.order.id, amount, .ok false⟩] } := by
      rw [Clean, Clean, Ends, Ends, settle, bind_of_ok hok]
      rfl
    rw [hsettle, clean_of_declined (congrArg (· ++ _) hv) rfl]
    rfl

/-! ## Whole calls -/

variable [Add α] [Mul α] [IntCast α] [OfScientific α] [PricingStrategy α γ S]

/-- A call dereferences no null strategy; where it throws without a declined payment, it
harms nothing and the next one dereferences none either; a declined payment cancels. -/
structure FailsCleanly (shop : ShopService α S γ) (w : World α S γ) : Prop where
  notNull : ∀ w', execute shop w ≠ .error .nullPricing w'
  unharmed : ∀ e w', execute shop w = .error (.threw e) w' → ¬ Declined w w' → Unharmed w w'
  again : ∀ e w', execute shop w = .error (.threw e) w' → ¬ Declined w w' →
    ∀ w'', execute shop w' ≠ .error .nullPricing w''
  cancelled : Declined w (left (execute shop w)) →
    (left (execute shop w)).order.state = .cancelled

/-- Nothing throws on the way to a payment, or to a declined one: the validators return,
the strategy returns an amount, the order is a draft then, its observers return when
they are told that it awaits its payment, the strategy that it has then returns an
amount once more, and the gateway is as `Settles` says. -/
def GoesThrough (shop : ShopService α S γ) (pricing : S) (w : World α S γ) : Prop :=
  Returns (validate shop.validator) w fun _ w₁ =>
    Returns payableAmount (setPricing (some pricing) w₁) fun _ w₂ =>
      w₂.order.state = .draft ∧ Returns (transitionTo .awaitingPayment) w₂ fun _ w₃ =>
        Returns payableAmount w₃ fun amount w₄ => Settles shop amount w₄

/-- The validators refuse the order, leave it as it is, and refuse it again. -/
def Refuses (shop : ShopService α S γ) (w : World α S γ) : Prop :=
  ∃ e w', validate shop.validator w = .error (.threw e) w' ∧
    w'.order.state = w.order.state ∧ w'.order.pricing = w.order.pricing ∧
      ¬ Returns (validate shop.validator) w' fun _ _ => True

/-- The world in which `checkout` runs: its parameter has the strategy. -/
def moved (w : World α S γ) : World α S γ :=
  { w with command := { w.command with pricing := none } }

/-- The command has been executed; or its strategy takes the order through; or it has
none to lose, and the validators refuse the order. -/
def Ready (shop : ShopService α S γ) (w : World α S γ) : Prop :=
  w.command.executed = true ∨
    match w.command.pricing with
    | none => Refuses shop w
    | some pricing => GoesThrough shop pricing (moved w)

theorem payableAmount_keeps : Keeps World.aside (payableAmount : Shopping α S γ α) := by
  refine .bind .get fun v => ?_
  split
  · exact .throw _
  · exact call_keeps _

/-- Nothing gives the command its strategy back. -/
theorem checkout_keeps_command (p : Option S) : Keeps World.command (checkout shop p) := by
  have hfst {β : Type} {x : Shopping α S γ β} (hx : Keeps World.aside x) :
      Keeps World.command x := hx.comp Prod.fst
  refine .bind (hfst (validate_keeps _)) fun _ => .bind (.modify fun _ => rfl) fun _ => ?_
  refine .bind (hfst payableAmount_keeps) fun _ => .bind (hfst submit_keeps) fun _ => ?_
  refine .bind (hfst payableAmount_keeps) fun amount => ?_
  refine .bind (payThrough_keeps_command amount) fun accepted => ?_
  split
  · exact .bind (hfst cancel_keeps) fun _ => .bind (.throw _) fun _ => hfst pay_keeps
  · exact hfst pay_keeps

/-- A checkout with a strategy. -/
theorem checkout_clean_iff {pricing : S} :
    Clean v (checkout shop (some pricing)) v ↔ GoesThrough shop pricing v := by
  rw [checkout, clean_bind (validate_keeps _) rfl, GoesThrough]
  refine returns_congr fun _ v₁ h₁ => ?_
  have hpaid : v₁.payments = v.payments := payments_of_ok (validate_keeps _) h₁
  have hv₁ : (setPricing (some pricing) v₁).payments = v.payments := hpaid
  rw [clean_modify, clean_bind payableAmount_keeps hv₁]
  refine returns_congr fun _ v₂ h₂ => ?_
  have hv₂ := (payments_of_ok payableAmount_keeps h₂).trans hv₁
  rw [submit_clean_iff hv₂]
  refine and_congr_right fun _ => returns_congr fun _ v₃ h₃ => ?_
  have hv₃ := (payments_of_ok (transitionTo_keeps _) h₃).trans hv₂
  rw [clean_bind payableAmount_keeps hv₃]
  refine returns_congr fun amount v₄ h₄ => ?_
  exact settle_clean_iff ((payments_of_ok payableAmount_keeps h₄).trans hv₃)

omit [Add α] [Mul α] [IntCast α] [OfScientific α] [PricingStrategy α γ S] in
theorem moved_eq (h : w.command.pricing = none) : moved w = w := by
  rw [moved, ← h]

theorem execute_executed (h : w.command.executed = true) :
    execute shop w = .error (.threw (.logicError "命令不能重复执行")) w := by
  rw [execute, get_bind, if_pos h]
  rfl

theorem execute_fresh (h : w.command.executed = false) :
    execute shop w = (do
      checkout shop w.command.pricing
      modify fun w => { w with command := { w.command with executed := true } }
        : Shopping α S γ Unit) (moved w) := by
  rw [execute, get_bind, h]
  rfl

/-- A call that throws before it does anything. -/
theorem failsCleanly_of_same (h : execute shop w = .error (.threw e) w) :
    FailsCleanly shop w where
  notNull w' h' := nomatch h.symm.trans h'
  unharmed e' w' h' _ := by
    cases h.symm.trans h'
    exact ⟨rfl, rfl, rfl, rfl⟩
  again e' w' h' _ w'' := by
    cases h.symm.trans h'
    exact fun h'' => nomatch h.symm.trans h''
  cancelled hdeclined := by
    rw [h] at hdeclined
    exact absurd hdeclined (not_declined rfl)

theorem failsCleanly_of_ok {b : PUnit} (h : execute shop w = .ok b w')
    (hcancelled : Declined w w' → w'.order.state = .cancelled) : FailsCleanly shop w where
  notNull _ h' := nomatch h.symm.trans h'
  unharmed _ _ h' _ := nomatch h.symm.trans h'
  again _ _ h' _ := nomatch h.symm.trans h'
  cancelled := by
    rw [h]
    exact hcancelled

/-- A call with a strategy: it loses it, so it has to end well. -/
theorem failsCleanly_some_iff {pricing : S} (hfresh : w.command.executed = false)
    (hsome : w.command.pricing = some pricing) :
    FailsCleanly shop w ↔ Clean (moved w) (checkout shop (some pricing)) (moved w) := by
  have hexecute := @execute_fresh _ _ _ shop w _ _ _ _ _ hfresh
  rw [hsome] at hexecute
  cases hcheckout : checkout shop (some pricing) (moved w) with
  | ok b v =>
      have hreturns := hexecute.trans (bind_of_ok hcheckout)
      rw [Clean, ends_of_ok hcheckout]
      constructor
      · intro hcleanly
        have hcancelled := hcleanly.cancelled
        rw [hreturns] at hcancelled
        exact hcancelled
      · intro hcancelled
        refine failsCleanly_of_ok hreturns fun hdeclined => ?_
        exact hcancelled hdeclined
  | error e v =>
      have hthrows := hexecute.trans (bind_of_error hcheckout)
      have hlost : v.command.pricing = none :=
        congrArg CheckoutCommand.pricing ((checkout_keeps_command _).of_error hcheckout)
      rw [Clean, ends_of_error hcheckout]
      constructor
      · intro hcleanly
        have hdeclined : Declined w v := by
          by_contra hnot
          cases e with
          | nullPricing => exact hcleanly.notNull v hthrows
          | threw e =>
              have hheld := (hcleanly.unharmed e v hthrows hnot).held
              exact nomatch hsome.symm.trans (hheld.symm.trans hlost)
        have hcancelled := hcleanly.cancelled
        rw [hthrows] at hcancelled
        refine ⟨?_, hdeclined, hcancelled hdeclined⟩
        rintro rfl
        exact hcleanly.notNull v hthrows
      · rintro ⟨hnull, hdeclined, hcancelled⟩
        constructor
        case notNull =>
          intro w' h
          cases hthrows.symm.trans h
          exact hnull rfl
        case unharmed =>
          intro e' w' h hnot
          cases hthrows.symm.trans h
          exact absurd hdeclined hnot
        case again =>
          intro e' w' h hnot
          cases hthrows.symm.trans h
          exact absurd hdeclined hnot
        case cancelled =>
          intro _
          rw [hthrows]
          exact hcancelled

theorem checkout_null (h : validate shop.validator v = .ok () w') :
    checkout shop none v = .error .nullPricing (setPricing none w') :=
  bind_of_ok h

/-- A call without a strategy: the validators have to refuse, now and again. -/
theorem failsCleanly_none_iff (hfresh : w.command.executed = false)
    (hnone : w.command.pricing = none) : FailsCleanly shop w ↔ Refuses shop w := by
  have hcheckout {v : World α S γ} (hv : v.command = w.command) : execute shop v = (do
      checkout shop none
      modify fun w => { w with command := { w.command with executed := true } }
        : Shopping α S γ Unit) v := by
    have hexecute := @execute_fresh _ _ _ shop v _ _ _ _ _ (hv ▸ hfresh)
    have hnone' : v.command.pricing = none := (congrArg CheckoutCommand.pricing hv).trans hnone
    rwa [hnone', moved_eq hnone'] at hexecute
  have hnull {v v' : World α S γ} (hv : v.command = w.command)
      (h : validate shop.validator v = .ok () v') :
      execute shop v = .error .nullPricing (setPricing none v') :=
    (hcheckout hv).trans (bind_of_error (checkout_null h))
  cases hvalid : validate shop.validator w with
  | ok b v =>
      refine iff_of_false (fun hcleanly => hcleanly.notNull _ (hnull rfl hvalid)) ?_
      rintro ⟨e, w', hrefused, -⟩
      exact nomatch hvalid.symm.trans hrefused
  | error e v =>
      have haside := (validate_keeps shop.validator).of_error hvalid
      have hcommand : v.command = w.command := congrArg Prod.fst haside
      have hpayments : v.payments = w.payments := congrArg Prod.snd haside
      cases e with
      | nullPricing => exact absurd hvalid (neverNull_validate _ w v)
      | threw e =>
          have hthrows : execute shop w = .error (.threw e) v :=
            (hcheckout rfl).trans (bind_of_error (bind_of_error hvalid))
          constructor
          · intro hcleanly
            have hsame := hcleanly.unharmed e v hthrows (not_declined hpayments)
            refine ⟨e, v, hvalid, hsame.state, hsame.pricing, fun hagain => ?_⟩
            cases hsecond : validate shop.validator v with
            | ok b v' =>
                exact hcleanly.again e v hthrows (not_declined hpayments) _
                  (hnull hcommand hsecond)
            | error e' v' => exact not_returns_of_error hsecond hagain
          · rintro ⟨e', w', hrefused, hstate, hpricing, hagain⟩
            cases hvalid.symm.trans hrefused
            constructor
            case notNull =>
              intro w'' h
              exact nomatch hthrows.symm.trans h
            case unharmed =>
              intro e' w'' h _
              cases hthrows.symm.trans h
              exact ⟨hstate, hpricing, hpayments, congrArg CheckoutCommand.pricing hcommand⟩
            case again =>
              intro e' w'' h _ w₂ h₂
              cases hthrows.symm.trans h
              cases hsecond : validate shop.validator v with
              | ok b v' => exact hagain ((returns_of_ok hsecond).mpr trivial)
              | error e₂ v' =>
                  cases ((hcheckout hcommand).trans
                    (bind_of_error (bind_of_error hsecond))).symm.trans h₂
                  exact neverNull_validate _ v _ hsecond
            case cancelled =>
              intro hdeclined
              rw [hthrows] at hdeclined
              exact absurd hdeclined (not_declined hpayments)

/-- A call of `execute` that fails leaves all as it was, but for a declined payment, if and
only if the command has been executed, or its strategy takes the order through, or it has
none to lose and the validators refuse the order. -/
theorem fails_cleanly_iff (shop : ShopService α S γ) (w : World α S γ) :
    FailsCleanly shop w ↔ Ready shop w := by
  rw [Ready]
  cases hexecuted : w.command.executed with
  | true => exact iff_of_true (failsCleanly_of_same (execute_executed hexecuted)) (.inl rfl)
  | false =>
      rw [or_iff_right Bool.false_ne_true]
      cases hpricing : w.command.pricing with
      | none => exact failsCleanly_none_iff hexecuted hpricing
      | some pricing =>
          rw [failsCleanly_some_iff hexecuted hpricing, checkout_clean_iff]

/-- The strategies of `main`. -/
inductive MainPricing where
  | regular
  | vip

/-- `RegularPricing` and `VipPricing` -/
instance : PricingStrategy ℚ Unit MainPricing where
  calculate
    | .regular, original => .answer (.ok original)
    | .vip, original => .answer (.ok (original * 0.9))

/-- The shop of `main`, with a gateway that accepts. -/
def mainShop : ShopService ℚ MainPricing Unit :=
  ⟨[nonEmptyValidator, stockValidator], fun _ _ => .answer (.ok true)⟩

/-- An order that is paid, and a command for it. -/
def paidOrder : World ℚ MainPricing Unit :=
  ⟨⟨"ORD-2026-001", [⟨"机械键盘", 1, 300, 3⟩], .paid, some .regular, []⟩, ⟨some .vip, false⟩, [],
    ()⟩

/-- `submit` throws, the order has the price of the command, the command has none, and
the call after that dereferences it. -/
theorem paid_order_loses_pricing :
    ¬ ∀ (shop : ShopService ℚ MainPricing Unit) (w : World ℚ MainPricing Unit),
      FailsCleanly shop w := by
  intro hall
  refine (hall mainShop paidOrder).again (.logicError "当前状态不能提交") _ rfl ?_ _ rfl
  exact not_declined rfl

end CKernel.Patterns.Checkout
