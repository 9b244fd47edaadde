import BaizeBoard.Library.RefCell

/-!
# The event bus of `framework/bus.rs`

A handler is arbitrary code that may call the bus again, so a run is a tree: a
call of `dispatch` comes with what the body of each handler it invokes does.
A failed borrow panics.  On the target a panic never returns, so the world it
happened in is where the run ends.

The log is ghost state.  A dispatch is named by the place in the log at which
it started.
-/

namespace BaizeBoard.EventBus

variable {H E : Type}

inductive Entry (H E : Type) where
  | registering (handler : H)
  | started (id : ℕ) (event : E)
  | invoked (id : ℕ) (handler : H) (event : E)
  | finished (id : ℕ)
  deriving DecidableEq

structure World (H E : Type) where
  handlers : RefCell (List H)
  log : List (Entry H E)

def World.start (handlers : List H) : World H E := { handlers := .new handlers, log := [] }

def World.note (w : World H E) (entry : Entry H E) : World H E :=
  { w with log := w.log ++ [entry] }

abbrev Run (H E : Type) := World H E → Except (World H E) (World H E)

/-- `self.handlers.borrow_mut().push(handler);` -/
def registerHandler (handler : H) : Run H E := fun w ↦
  let w := w.note (.registering handler)
  match w.handlers.borrowMut with
  | none => .error w
  | some handlers => .ok { w with handlers := (handlers.modify (· ++ [handler])).release }

/-- The `for` loop of `dispatch`.  The shared borrow is live until it ends, so
the slice it iterates over stays the same. -/
def eachHandler (handle : ℕ → H → E → Run H E) (id : ℕ) (event : E) : ℕ → List H → Run H E
  | _, [], w => .ok w
  | i, handler :: handlers, w => do
      let w ← handle i handler event (w.note (.invoked id handler event))
      eachHandler handle id event (i + 1) handlers w

/-- `for handler in self.handlers.borrow().iter() { handler.handle(event); }`,
where `handle i` is the body of the handler at the place `i`. -/
def dispatch (handle : ℕ → H → E → Run H E) (event : E) : Run H E := fun w ↦
  match w.handlers.borrow with
  | none => .error w
  | some handlers => do
      let id := w.log.length
      let w := { w with handlers }.note (.started id event)
      let w ← eachHandler handle id event 0 handlers.value w
      return { w with handlers := w.handlers.release }.note (.finished id)

/-- A call on the bus, and for a dispatch the calls that the body of each
handler makes. -/
inductive Call (H E : Type) where
  | registerHandler (handler : H)
  | dispatch (event : E) (body : ℕ → List (Call H E))

mutual

def Call.run : Call H E → Run H E
  | .registerHandler handler, w => EventBus.registerHandler handler w
  | .dispatch event body, w => EventBus.dispatch (fun i _ _ w ↦ runAll (body i) w) event w

def runAll : List (Call H E) → Run H E
  | [], w => .ok w
  | c :: cs, w => c.run w >>= runAll cs

end

end BaizeBoard.EventBus
