import BaizeBoard.Framework.BusLog

/-!
# The handler of `features/example.rs`

`MyEventHandler` tells its events by the string of `get_type` and then unwraps
a downcast to `MyEvent`.  `Event` is an open trait: a type of another crate may
answer with the same string, and `tests/integration_test.rs` has one that does.

A panic cuts off the handlers behind the one that panics.
-/

namespace BaizeBoard.EventBus

structure MyEvent where
  message : List Char
  deriving DecidableEq

/-- What a `&dyn Any` refers to; `α` has the values of all types but `MyEvent`. -/
inductive AnyRef (α : Type) where
  | myEvent (event : MyEvent)
  | other (value : α)

/-- `downcast_ref::<MyEvent>` -/
def AnyRef.downcastRef {α : Type} : AnyRef α → Option MyEvent
  | .myEvent event => some event
  | .other _ => none

/-- An implementation of `Event`.  Its methods may answer differently each time, so they
take the place of the handler that asks. -/
structure Event (α : Type) where
  self : AnyRef α
  getType : ℕ → List Char
  asAny : ℕ → AnyRef α
  /-- `impl event::Event for MyEvent` -/
  impl : ∀ event, self = .myEvent event →
    ∀ i, getType i = "MyEvent".toList ∧ asAny i = .myEvent event

variable {O α : Type}

def Event.IsMyEvent (event : Event α) : Prop := ∃ e, event.self = .myEvent e

/-- The lines that `MyEventHandler::handle` prints; `none` is the panic of `unwrap`. -/
def MyEventHandler.handle (event : Event α) (i : ℕ) : Option (List (List Char)) :=
  if event.getType i = "MyEvent".toList then do
    let myEvent ← (event.asAny i).downcastRef
    return ["handle example event...".toList ++ myEvent.message]
  else some []

def MyEventHandler.Acts (event : Event α) (i : ℕ) : Prop :=
  ∃ line, MyEventHandler.handle event i = some [line]

inductive Handler (O : Type) where
  | myEventHandler
  | other (handler : O)

/-! ## Handlers that return -/

/-- From `w` to `w'` no borrow is left over, and the dispatches that had started before are
where they were. -/
structure Returns {H E : Type} (w w' : World H E) : Prop where
  handlers : w'.handlers = w.handlers
  log : w.log <+: w'.log
  deliveries : ∀ id < w.log.length, deliveries id w'.log = deliveries id w.log

/-- The other handlers of a bus: any code that returns. -/
structure Others (O α : Type) where
  handle : ℕ → O → Event α → Run (Handler O) (Event α)
  returns : ∀ i handler event w n, w.handlers.flag = .shared (n + 1) →
    ∃ w', handle i handler event w = .ok w' ∧ Returns w w'

def Handler.handle (others : Others O α) (i : ℕ) (handler : Handler O) (event : Event α) :
    Run (Handler O) (Event α) := fun w ↦
  match handler with
  | .myEventHandler =>
      match MyEventHandler.handle event i with
      | some _ => .ok w
      | none => .error w
  | .other o => others.handle i o event w

theorem Returns.refl {H E : Type} (w : World H E) : Returns w w :=
  ⟨rfl, List.prefix_rfl, fun _ _ ↦ rfl⟩

theorem eachHandler_returns {H E : Type} {handle : ℕ → H → E → Run H E} {id n : ℕ} {event : E}
    (todo : List H) (i : ℕ) (w : World H E) (hid : id < w.log.length)
    (hflag : w.handlers.flag = .shared (n + 1))
    (hhandle : ∀ j h, todo[j]? = some h → ∀ v, v.handlers.flag = .shared (n + 1) →
      ∃ v', handle (i + j) h event v = .ok v' ∧ Returns v v') :
    ∃ w', eachHandler handle id event i todo w = .ok w' ∧ w'.handlers = w.handlers ∧
      w.log <+: w'.log ∧
      deliveries id w'.log = deliveries id w.log ++ todo.map (·, event) ∧
      ∀ id' < w.log.length, id' ≠ id → deliveries id' w'.log = deliveries id' w.log := by
  induction todo generalizing i w with
  | nil => exact ⟨w, rfl, rfl, List.prefix_rfl, by simp, fun _ _ _ ↦ rfl⟩
  | cons h todo ih =>
      obtain ⟨v, hv, hcell, hlog, hdue⟩ := hhandle 0 h rfl (w.note (.invoked id h event)) hflag
      rw [Nat.add_zero] at hv
      have hlength : w.log.length + 1 ≤ v.log.length := by
        simpa [World.note] using hlog.length_le
      obtain ⟨w', hw', hcell', hlog', hself, hother⟩ := ih (i + 1) v (by omega)
        (by rw [hcell]; exact hflag) (by
          intro j k hk u hu
          rw [Nat.add_assoc, Nat.add_comm 1]
          exact hhandle (j + 1) k hk u hu)
      refine ⟨w', ?_, hcell'.trans hcell, ?_, ?_, ?_⟩
      · rw [eachHandler, hv]
        exact hw'
      · exact (List.prefix_append w.log [.invoked id h event]).trans (hlog.trans hlog')
      · rw [hself, hdue id (by simp [World.note]; omega)]
        simp [World.note]
      · intro id' hid' hne
        rw [hother id' (by omega) hne, hdue id' (by simp [World.note]; omega)]
        exact deliveries_invoked_of_ne w.log h event id' id (Ne.symm hne)

theorem eachHandler_ok {H E : Type} {handle : ℕ → H → E → Run H E} {id : ℕ} {event : E}
    {todo : List H} {i : ℕ} {w w' : World H E}
    (hok : eachHandler handle id event i todo w = .ok w') {j : ℕ} {h : H}
    (hj : todo[j]? = some h) : ∃ v v', handle (i + j) h event v = .ok v' := by
  induction todo generalizing i w j with
  | nil => cases hj
  | cons k todo ih =>
      unfold eachHandler at hok
      cases hk : handle i k event (w.note (.invoked id k event)) with
      | error v =>
          rw [hk] at hok
          cases hok
      | ok v =>
          rw [hk] at hok
          cases j with
          | zero =>
              cases hj
              exact ⟨_, v, hk⟩
          | succ j =>
              obtain ⟨u, u', hu⟩ := ih hok hj
              exact ⟨u, u', by rw [← hu, Nat.add_assoc, Nat.add_comm 1]⟩

/-! ## Dispatch -/

theorem MyEventHandler.handle_other {event : Event α} {i : ℕ}
    (htag : event.getType i ≠ "MyEvent".toList) : handle event i = some [] := by
  rw [handle, if_neg htag]

theorem MyEventHandler.handle_tag {event : Event α} {i : ℕ}
    (htag : event.getType i = "MyEvent".toList) :
    handle event i = (event.asAny i).downcastRef.map fun e ↦
      ["handle example event...".toList ++ e.message] := by
  rw [handle, if_pos htag]
  cases (event.asAny i).downcastRef <;> rfl

theorem MyEventHandler.handle_eq_none {event : Event α} {i : ℕ} :
    handle event i = none ↔ event.getType i = "MyEvent".toList ∧ ∃ v, event.asAny i = .other v := by
  by_cases htag : event.getType i = "MyEvent".toList
  · rw [handle_tag htag, Option.map_eq_none_iff, and_iff_right htag]
    cases event.asAny i <;> simp [AnyRef.downcastRef]
  · rw [handle_other htag]
    exact iff_of_false (Option.some_ne_none _) fun h ↦ htag h.1

theorem MyEventHandler.acts_iff {event : Event α} {i : ℕ} :
    Acts event i ↔ event.getType i = "MyEvent".toList ∧ ∃ e, event.asAny i = .myEvent e := by
  unfold Acts
  by_cases htag : event.getType i = "MyEvent".toList
  · simp only [handle_tag htag, and_iff_right htag]
    cases event.asAny i <;> simp [AnyRef.downcastRef]
  · rw [handle_other htag]
    refine iff_of_false ?_ fun h ↦ htag h.1
    rintro ⟨line, hline⟩
    cases hline

/-- Every handler is reached, and each `MyEventHandler` acts on a `MyEvent` only. -/
structure Tolerates (others : Others O α) (event : Event α)
    (w : World (Handler O) (Event α)) : Prop where
  reaches : ∃ w', dispatch (Handler.handle others) event w = .ok w' ∧
    deliveries w.log.length w'.log =
      deliveries w.log.length w.log ++ w.handlers.value.map (·, event)
  acts : ∀ i, w.handlers.value[i]? = some .myEventHandler →
    (MyEventHandler.Acts event i ↔ event.IsMyEvent)

section Dispatch

variable {others : Others O α} {event : Event α} {w : World (Handler O) (Event α)} {n : ℕ}

theorem dispatch_reaches (hflag : w.handlers.flag = .shared n)
    (hsome : ∀ i, w.handlers.value[i]? = some .myEventHandler →
      MyEventHandler.handle event i ≠ none) :
    ∃ w', dispatch (Handler.handle others) event w = .ok w' ∧
      deliveries w.log.length w'.log =
        deliveries w.log.length w.log ++ w.handlers.value.map (·, event) := by
  obtain ⟨v, hv, -, -, hself, -⟩ := @eachHandler_returns _ _ (Handler.handle others)
    w.log.length n event w.handlers.value 0
    (World.note { w with handlers := { w.handlers with flag := .shared (n + 1) } }
      (.started w.log.length event)) (by simp [World.note]) rfl (by
      intro i handler hi v hflag
      rw [Nat.zero_add]
      cases handler with
      | other o => exact others.returns i o event v n hflag
      | myEventHandler =>
          obtain ⟨lines, hlines⟩ := Option.ne_none_iff_exists'.mp (hsome i hi)
          exact ⟨v, by simp [Handler.handle, hlines], .refl v⟩)
  refine ⟨World.note { v with handlers := v.handlers.release } (.finished w.log.length), ?_, ?_⟩
  · unfold dispatch
    simp only [RefCell.borrow_shared hflag]
    rw [hv]
    rfl
  · simpa [World.note] using hself

theorem dispatch_handles {w' : World (Handler O) (Event α)}
    (hok : dispatch (Handler.handle others) event w = .ok w')
    (hflag : w.handlers.flag = .shared n) {i : ℕ}
    (hi : w.handlers.value[i]? = some .myEventHandler) : MyEventHandler.handle event i ≠ none := by
  intro hnone
  unfold dispatch at hok
  simp only [RefCell.borrow_shared hflag] at hok
  cases hloop : eachHandler (Handler.handle others) w.log.length event 0 w.handlers.value
      (World.note { w with handlers := { w.handlers with flag := .shared (n + 1) } }
        (.started w.log.length event)) with
  | error v =>
      rw [hloop] at hok
      cases hok
  | ok v =>
      obtain ⟨u, u', hu⟩ := eachHandler_ok hloop hi
      rw [Nat.zero_add] at hu
      simp [Handler.handle, hnone] at hu

end Dispatch

/-- A dispatch tolerates the event iff it is a `MyEvent` or no `MyEventHandler` of the bus
is answered with the string `MyEvent`. -/
theorem dispatch_tolerates_iff (others : Others O α) (event : Event α)
    (w : World (Handler O) (Event α)) (n : ℕ) (hflag : w.handlers.flag = .shared n) :
    Tolerates others event w ↔ event.IsMyEvent ∨
      ∀ i, w.handlers.value[i]? = some .myEventHandler → event.getType i ≠ "MyEvent".toList := by
  constructor
  · rintro ⟨⟨w', hok, -⟩, hacts⟩
    refine or_iff_not_imp_left.mpr fun hother i hi htag ↦ ?_
    -- The downcast fails or the handler acts on an event that it should leave alone.
    cases hany : event.asAny i with
    | other v =>
        exact dispatch_handles hok hflag hi (MyEventHandler.handle_eq_none.mpr ⟨htag, v, hany⟩)
    | myEvent e =>
        exact hother ((hacts i hi).mp (MyEventHandler.acts_iff.mpr ⟨htag, e, hany⟩))
  · rintro (⟨e, hself⟩ | htag)
    · have himpl := event.impl e hself
      refine ⟨dispatch_reaches hflag fun i _ hnone ↦ ?_, fun i _ ↦ ?_⟩
      · obtain ⟨-, v, hv⟩ := MyEventHandler.handle_eq_none.mp hnone
        rw [(himpl i).2] at hv
        cases hv
      · exact iff_of_true (MyEventHandler.acts_iff.mpr ⟨(himpl i).1, e, (himpl i).2⟩) ⟨e, hself⟩
    · refine ⟨dispatch_reaches hflag fun i hi hnone ↦ ?_, fun i hi ↦ ?_⟩
      · exact htag i hi (MyEventHandler.handle_eq_none.mp hnone).1
      · refine iff_of_false (fun hacts ↦ htag i hi (MyEventHandler.acts_iff.mp hacts).1) ?_
        rintro ⟨e, hself⟩
        exact htag i hi (event.impl e hself i).1

/-- Handlers that do nothing. -/
def Others.quiet (O α : Type) : Others O α where
  handle _ _ _ := .ok
  returns _ _ _ w _ _ := ⟨w, rfl, .refl w⟩

/-- `ExampleEvent` of `tests/integration_test.rs`, seen by the handlers of a bus. -/
def ExampleEvent.event (message : List Char) : Event (List Char) where
  self := .other message
  getType _ := "MyEvent".toList
  asAny _ := .other message
  impl _ h := by cases h

def MyEvent.event (e : MyEvent) (α : Type) : Event α where
  self := .myEvent e
  getType _ := "MyEvent".toList
  asAny _ := .myEvent e
  impl _ h _ := by
    cases h
    exact ⟨rfl, rfl⟩

theorem dispatch_tolerates_myEvent :
    let w : World (Handler Unit) (Event ℕ) :=
      World.start [.myEventHandler, .other (), .myEventHandler]
    Tolerates (Others.quiet Unit ℕ) (MyEvent.event ⟨"hey".toList⟩ ℕ) w :=
  (dispatch_tolerates_iff (Others.quiet Unit ℕ) (MyEvent.event ⟨"hey".toList⟩ ℕ)
    (World.start [.myEventHandler, .other (), .myEventHandler]) 0 rfl).mpr (.inl ⟨_, rfl⟩)

/-- The handler behind the one that panics is not reached. -/
theorem dispatch_exampleEvent :
    let event := ExampleEvent.event "hey".toList
    let w : World (Handler Unit) (Event (List Char)) := World.start [.myEventHandler, .other ()]
    ¬ Tolerates (Others.quiet Unit (List Char)) event w ∧
      ∃ w', dispatch (Handler.handle (Others.quiet Unit (List Char))) event w = .error w' ∧
        deliveries 0 w'.log = [(.myEventHandler, event)] := by
  constructor
  · rintro ⟨⟨w', hok, -⟩, -⟩
    cases hok
  · exact ⟨_, rfl, rfl⟩

end BaizeBoard.EventBus
