import BaizeBoard.Framework.BusLog

/-!
# Delivery of events over whole runs

`Inv` holds of every world of a run: the cell is borrowed once for each active
dispatch, and the log is `Delivered`.  A run ends in a panic where it registers
a handler while a dispatch is active, and nowhere else.
-/

namespace BaizeBoard.EventBus

variable {H E : Type}

/-- The world of a bus that began with `handlers₀`, while the dispatches of the
stack are active. -/
structure Inv (handlers₀ : List H) (stack : List (Frame H E)) (w : World H E) : Prop where
  flag : w.handlers.flag = .shared stack.length
  value : w.handlers.value = handlers₀ ++ registered w.log
  log : Delivered handlers₀ stack w.log

/-- The call panicked: it tried to register `h` in the world `w`, in which a
dispatch is active. -/
def Panicked (handlers₀ : List H) (w' : World H E) : Prop :=
  ∃ stack w h, stack ≠ [] ∧ Inv handlers₀ stack w ∧ w' = w.note (.registering h)

def Keeps (handlers₀ : List H) (stack : List (Frame H E)) :
    Except (World H E) (World H E) → Prop
  | .ok w => Inv handlers₀ stack w
  | .error w => Panicked handlers₀ w

variable {handlers₀ : List H} {stack : List (Frame H E)} {w : World H E}

theorem inv_start (handlers₀ : List H) : Inv handlers₀ [] (World.start handlers₀ : World H E) where
  flag := rfl
  value := (List.append_nil handlers₀).symm
  log := Delivered.nil handlers₀

theorem Keeps.bind {stack' : List (Frame H E)} {r : Except (World H E) (World H E)} {k : Run H E}
    (h : Keeps handlers₀ stack' r)
    (hk : ∀ w, Inv handlers₀ stack' w → Keeps handlers₀ stack (k w)) :
    Keeps handlers₀ stack (r >>= k) := by
  cases r with
  | ok w => exact hk w h
  | error w => exact h

/-! ## One lemma for each operation -/

theorem registerHandler_idle (handler : H) (hflag : w.handlers.flag = .shared 0) :
    registerHandler handler w = .ok
      { handlers := { value := w.handlers.value ++ [handler], flag := .shared 0 }
        log := w.log ++ [.registering handler] } := by
  unfold registerHandler
  simp only [World.note, RefCell.borrowMut_free hflag]
  rfl

theorem registerHandler_active (handler : H) (hflag : w.handlers.flag ≠ .shared 0) :
    registerHandler handler w = .error (w.note (.registering handler)) := by
  have hfails : (w.note (.registering handler)).handlers.borrowMut = none :=
    (RefCell.borrowMut_eq_none_iff _).mpr hflag
  unfold registerHandler
  simp only [hfails]

theorem keeps_registerHandler (h : Inv handlers₀ stack w) (handler : H) :
    Keeps handlers₀ stack (registerHandler handler w) := by
  cases stack with
  | nil =>
      rw [registerHandler_idle handler h.flag]
      refine ⟨rfl, ?_, h.log.registering handler⟩
      simp [h.value]
  | cons f stack =>
      rw [registerHandler_active handler (by simp [h.flag])]
      exact ⟨f :: stack, w, handler, by simp, h, rfl⟩

theorem keeps_eachHandler {handle : ℕ → H → E → Run H E} {id : ℕ} {event : E}
    (hhandle : ∀ i handler stack w, Inv handlers₀ stack w →
      Keeps handlers₀ stack (handle i handler event w))
    (todo : List H) (i : ℕ) (done : List H)
    (h : Inv handlers₀ ({ id, event, done, todo } :: stack) w) :
    Keeps handlers₀ ({ id, event, done := done ++ todo, todo := [] } :: stack)
      (eachHandler handle id event i todo w) := by
  induction todo generalizing i done w with
  | nil => simpa [eachHandler, Keeps] using h
  | cons handler todo ih =>
      have hnext : Inv handlers₀ ({ id, event, done := done ++ [handler], todo } :: stack)
          (w.note (.invoked id handler event)) :=
        ⟨h.flag, by simp [World.note, h.value], h.log.invoked⟩
      refine (hhandle i handler _ _ hnext).bind fun w' hw' ↦ ?_
      simpa using ih (i + 1) (done ++ [handler]) hw'

theorem keeps_dispatch {handle : ℕ → H → E → Run H E} {event : E}
    (hhandle : ∀ i handler stack w, Inv handlers₀ stack w →
      Keeps handlers₀ stack (handle i handler event w))
    (h : Inv handlers₀ stack w) : Keeps handlers₀ stack (dispatch handle event w) := by
  unfold dispatch
  simp only [RefCell.borrow_shared h.flag]
  have hstarted : Inv handlers₀ (⟨w.log.length, event, [], w.handlers.value⟩ :: stack)
      (World.note { w with handlers := { w.handlers with flag := .shared (stack.length + 1) } }
        (.started w.log.length event)) := by
    refine ⟨rfl, by simp [World.note, h.value], ?_⟩
    rw [h.value]
    exact h.log.started event
  refine (keeps_eachHandler hhandle _ 0 [] hstarted).bind fun w' hw' ↦ ?_
  refine ⟨?_, ?_, hw'.log.finished⟩
  · simp [World.note, RefCell.release_shared hw'.flag]
  · simp [World.note, RefCell.release_shared hw'.flag, hw'.value]

mutual

theorem keeps_run : ∀ (c : Call H E) (stack : List (Frame H E)) (w : World H E),
    Inv handlers₀ stack w → Keeps handlers₀ stack (c.run w)
  | .registerHandler handler, _, _, h => by
      rw [Call.run]
      exact keeps_registerHandler h handler
  | .dispatch _ body, _, _, h => by
      rw [Call.run]
      exact keeps_dispatch (fun i _ stack w hw ↦ keeps_runAll (body i) stack w hw) h

theorem keeps_runAll : ∀ (cs : List (Call H E)) (stack : List (Frame H E)) (w : World H E),
    Inv handlers₀ stack w → Keeps handlers₀ stack (runAll cs w)
  | [], _, _, h => by
      rw [runAll]
      exact h
  | c :: cs, stack, w, h => by
      rw [runAll]
      exact (keeps_run c stack w h).bind fun w' hw' ↦ keeps_runAll cs stack w' hw'

end

/-! ## The depth-first trace -/

def Call.registers : Call H E → List H
  | .registerHandler handler => [handler]
  | .dispatch _ _ => []

mutual

/-- The invocations of a call, when no handler registers another: each handler
is followed by those of the dispatches in its body. -/
def Call.trace : Call H E → List H → List (H × E)
  | .registerHandler _, _ => []
  | .dispatch event body, handlers =>
      handlers.zipIdx.flatMap fun p ↦ (p.1, event) :: traceAll (body p.2) handlers

def traceAll : List (Call H E) → List H → List (H × E)
  | [], _ => []
  | c :: cs, handlers => c.trace handlers ++ traceAll cs (handlers ++ c.registers)

end

mutual

def Call.Silent : Call H E → Prop
  | .registerHandler _ => False
  | .dispatch _ body => ∀ i, AllSilent (body i)

def AllSilent : List (Call H E) → Prop
  | [] => True
  | c :: cs => c.Silent ∧ AllSilent cs

end

def Call.Outer : Call H E → Prop
  | .registerHandler _ => True
  | .dispatch _ body => ∀ i, AllSilent (body i)

/-- From `w` to `w'` the invocations `trace` are made, and the cell is as before. -/
structure Traces (w w' : World H E) (trace : List (H × E)) : Prop where
  handlers : w'.handlers = w.handlers
  log : invocations w'.log = invocations w.log ++ trace

theorem eachHandler_traces {handle : ℕ → H → E → Run H E} (id : ℕ) {event : E}
    {cell : RefCell (List H)} (trace : ℕ → List (H × E))
    (hhandle : ∀ i handler w, w.handlers = cell →
      ∃ w', handle i handler event w = .ok w' ∧ Traces w w' (trace i))
    (todo : List H) (i : ℕ) (w : World H E) (hw : w.handlers = cell) :
    ∃ w', eachHandler handle id event i todo w = .ok w' ∧
      Traces w w' ((todo.zipIdx i).flatMap fun p ↦ (p.1, event) :: trace p.2) := by
  induction todo generalizing i w with
  | nil => exact ⟨w, rfl, rfl, by simp⟩
  | cons handler todo ih =>
      obtain ⟨v, hv, hcell, hlog⟩ :=
        hhandle i handler (w.note (.invoked id handler event)) hw
      obtain ⟨w', hw', hcell', hlog'⟩ := ih (i + 1) v (hcell.trans hw)
      refine ⟨w', ?_, hcell'.trans hcell, ?_⟩
      · rw [eachHandler, hv]
        exact hw'
      · rw [hlog', hlog]
        simp [World.note]

theorem dispatch_traces {handle : ℕ → H → E → Run H E} {event : E} {w : World H E} {n : ℕ}
    (trace : ℕ → List (H × E)) (hflag : w.handlers.flag = .shared n)
    (hhandle : ∀ i handler v, v.handlers = { w.handlers with flag := .shared (n + 1) } →
      ∃ w', handle i handler event v = .ok w' ∧ Traces v w' (trace i)) :
    ∃ w', dispatch handle event w = .ok w' ∧
      Traces w w' (w.handlers.value.zipIdx.flatMap fun p ↦ (p.1, event) :: trace p.2) := by
  obtain ⟨v, hv, hcell, hlog⟩ := eachHandler_traces w.log.length trace hhandle w.handlers.value 0
    (World.note { w with handlers := { w.handlers with flag := .shared (n + 1) } }
      (.started w.log.length event)) rfl
  have hfree : v.handlers.release = w.handlers := by
    rw [hcell]
    simp only [World.note, RefCell.release, Nat.add_sub_cancel, ← hflag]
  refine ⟨World.note { v with handlers := v.handlers.release } (.finished w.log.length), ?_,
    hfree, ?_⟩
  · unfold dispatch
    simp only [RefCell.borrow_shared hflag]
    rw [hv]
    rfl
  · simpa [World.note] using hlog

mutual

theorem Call.run_silent : ∀ (c : Call H E) (w : World H E) (n : ℕ), c.Silent →
    w.handlers.flag = .shared n →
    ∃ w', c.run w = .ok w' ∧ Traces w w' (c.trace w.handlers.value)
  | .registerHandler _, _, _, hsilent, _ => by
      rw [Call.Silent] at hsilent
      exact hsilent.elim
  | .dispatch event body, w, n, hsilent, hflag => by
      rw [Call.Silent] at hsilent
      rw [Call.run, Call.trace]
      refine dispatch_traces (fun i ↦ traceAll (body i) w.handlers.value) hflag
        fun i handler v hv ↦ ?_
      have hbody := runAll_silent (body i) v (n + 1) (hsilent i) (by rw [hv])
      simpa only [hv] using hbody

theorem runAll_silent : ∀ (cs : List (Call H E)) (w : World H E) (n : ℕ), AllSilent cs →
    w.handlers.flag = .shared n →
    ∃ w', runAll cs w = .ok w' ∧ Traces w w' (traceAll cs w.handlers.value)
  | [], w, _, _, _ => ⟨w, by rw [runAll], rfl, by rw [traceAll, List.append_nil]⟩
  | c :: cs, w, n, hsilent, hflag => by
      rw [AllSilent] at hsilent
      obtain ⟨v, hv, hcell, hlog⟩ := Call.run_silent c w n hsilent.1 hflag
      obtain ⟨w', hw', hcell', hlog'⟩ := runAll_silent cs v n hsilent.2 (by rw [hcell, hflag])
      refine ⟨w', by rw [runAll, hv]; exact hw', hcell'.trans hcell, ?_⟩
      rw [hlog', hlog, traceAll, hcell, List.append_assoc]
      cases c with
      | registerHandler h =>
          rw [Call.Silent] at hsilent
          exact hsilent.1.elim
      | dispatch event body => rw [Call.registers, List.append_nil]

end

theorem Call.run_outer (c : Call H E) {w : World H E} (houter : c.Outer)
    (hflag : w.handlers.flag = .shared 0) :
    ∃ w', c.run w = .ok w' ∧
      w'.handlers = { value := w.handlers.value ++ c.registers, flag := .shared 0 } ∧
      invocations w'.log = invocations w.log ++ c.trace w.handlers.value := by
  cases c with
  | registerHandler handler =>
      rw [Call.run, Call.trace]
      exact ⟨_, registerHandler_idle handler hflag, rfl, by simp⟩
  | dispatch event body =>
      have hsilent : (Call.dispatch event body : Call H E).Silent := by
        rw [Call.Silent]
        exact houter
      obtain ⟨w', hw', hcell, hlog⟩ := Call.run_silent _ w 0 hsilent hflag
      refine ⟨w', hw', ?_, hlog⟩
      rw [hcell, Call.registers, List.append_nil, ← hflag]

theorem runAll_outer (cs : List (Call H E)) {w : World H E} (houter : ∀ c ∈ cs, c.Outer)
    (hflag : w.handlers.flag = .shared 0) :
    ∃ w', runAll cs w = .ok w' ∧
      w'.handlers = { value := w.handlers.value ++ cs.flatMap Call.registers
                      flag := .shared 0 } ∧
      invocations w'.log = invocations w.log ++ traceAll cs w.handlers.value := by
  induction cs generalizing w with
  | nil => exact ⟨w, by rw [runAll], by simp [← hflag], by simp [traceAll]⟩
  | cons c cs ih =>
      obtain ⟨v, hv, hcell, hlog⟩ := c.run_outer (houter c List.mem_cons_self) hflag
      obtain ⟨w', hw', hcell', hlog'⟩ :=
        ih (fun d hd ↦ houter d (List.mem_cons_of_mem _ hd)) (by rw [hcell])
      refine ⟨w', by rw [runAll, hv]; exact hw', ?_, ?_⟩
      · rw [hcell', hcell, List.flatMap_cons, List.append_assoc]
      · rw [hlog', hlog, hcell, traceAll, List.append_assoc]

theorem runAll_append (front back : List (Call H E)) (w : World H E) :
    runAll (front ++ back) w = runAll front w >>= runAll back := by
  induction front generalizing w with
  | nil =>
      rw [runAll]
      rfl
  | cons c front ih =>
      rw [List.cons_append, runAll, runAll]
      cases c.run w with
      | ok v => exact ih v
      | error v => rfl

/-- With no dispatch active any more, every dispatch has made the invocations it
owed. -/
theorem Inv.delivered (h : Inv handlers₀ [] w) {front back : List (Entry H E)} {id : ℕ} {event : E}
    (hlog : w.log = front ++ .started id event :: back) :
    deliveries id w.log = (handlers₀ ++ registered front).map (·, event) := by
  rcases h.log.complete front id event back hlog with hmem | ⟨-, hall⟩
  · cases hmem
  · exact hall

/-- As long as no handler body registers, no borrow fails, every dispatch
invokes the handlers registered before it once and in order, and the
invocations are the depth-first trace. -/
theorem dispatch_exactly_once (handlers₀ : List H) (cs : List (Call H E))
    (houter : ∀ c ∈ cs, c.Outer) :
    (∀ front back, cs = front ++ back → ∃ w, runAll front (World.start handlers₀) = .ok w ∧
      w.handlers.flag = .shared 0 ∧ runAll cs (World.start handlers₀) = runAll back w) ∧
    ∃ w, runAll cs (World.start handlers₀) = .ok w ∧
      w.handlers.value = handlers₀ ++ cs.flatMap Call.registers ∧
      invocations w.log = traceAll cs handlers₀ ∧
      ∀ front id event back, w.log = front ++ .started id event :: back →
        deliveries id w.log = (handlers₀ ++ registered front).map (·, event) := by
  constructor
  · rintro front back rfl
    obtain ⟨w, hw, hcell, -⟩ := runAll_outer front (w := World.start handlers₀)
      (fun c hc ↦ houter c (List.mem_append_left _ hc)) rfl
    refine ⟨w, hw, by rw [hcell], ?_⟩
    rw [runAll_append, hw]
    rfl
  · obtain ⟨w, hw, hcell, htrace⟩ := runAll_outer cs (w := World.start handlers₀) houter rfl
    have hinv := keeps_runAll cs [] _ (inv_start handlers₀)
    rw [hw] at hinv
    refine ⟨w, hw, by rw [hcell]; rfl, htrace, ?_⟩
    intro front id event back hlog
    exact Inv.delivered hinv hlog

theorem dispatch_exactly_once_example :
    let cs : List (Call Char ℕ) := [.registerHandler 'a', .registerHandler 'b',
      .dispatch 0 fun i ↦ if i = 0 then [.dispatch 1 fun _ ↦ []] else []]
    (∀ front back, cs = front ++ back → ∃ w, runAll front (World.start []) = .ok w ∧
      w.handlers.flag = .shared 0 ∧ runAll cs (World.start []) = runAll back w) ∧
    ∃ w, runAll cs (World.start []) = .ok w ∧
      w.handlers.value = [] ++ cs.flatMap Call.registers ∧
      invocations w.log = traceAll cs [] ∧
      ∀ front id event back, w.log = front ++ .started id event :: back →
        deliveries id w.log = ([] ++ registered front).map (·, event) := by
  refine dispatch_exactly_once [] _ ?_
  intro c hc
  simp only [List.mem_cons, List.not_mem_nil, or_false] at hc
  rcases hc with rfl | rfl | rfl
  · trivial
  · trivial
  · intro i
    have hnil : AllSilent ([] : List (Call Char ℕ)) := by
      rw [AllSilent]
      trivial
    change AllSilent (if i = 0 then _ else _)
    split
    · rw [AllSilent, Call.Silent]
      exact ⟨fun _ ↦ hnil, hnil⟩
    · exact hnil

/-! ## Runs in which handlers register -/

/-- The world a run ends in, by returning or by a panic. -/
def final : Except (World H E) (World H E) → World H E
  | .ok w => w
  | .error w => w

theorem Inv.deliveries_prefix (h : Inv handlers₀ stack w) {front back : List (Entry H E)} {id : ℕ}
    {event : E} (hlog : w.log = front ++ .started id event :: back) :
    deliveries id w.log <+: (handlers₀ ++ registered front).map (·, event) ∧
      (.finished id ∈ w.log →
        deliveries id w.log = (handlers₀ ++ registered front).map (·, event)) := by
  rcases h.log.complete front id event back hlog with hmem | ⟨-, hall⟩
  · obtain ⟨f, hf, rfl⟩ := List.mem_map.mp hmem
    obtain ⟨⟨front', back', hlog', hdue⟩, hdone, hunfinished⟩ := h.log.frames f hf
    have hlen : front'.length = front.length :=
      (h.log.name _ _ _ _ hlog').symm.trans (h.log.name _ _ _ _ hlog)
    obtain ⟨rfl, hentry⟩ := List.append_inj (hlog'.symm.trans hlog) hlen
    cases (List.cons.inj hentry).1
    refine ⟨?_, fun hfin ↦ absurd hfin hunfinished⟩
    rw [hdone, ← hdue, List.map_append]
    exact List.prefix_append _ _
  · exact ⟨hall ▸ List.prefix_refl _, fun _ ↦ hall⟩

theorem Inv.not_active (hinv : Inv handlers₀ stack w) {front back : List (Entry H E)} {h : H}
    (hlog : w.log = front ++ .registering h :: back) : ¬ 0 < active front := by
  rw [hinv.log.calm front h back hlog]
  exact Nat.lt_irrefl 0

/-- The registration that panics is the last entry, and the only one while a dispatch is
active. -/
theorem Inv.panicked_registering (hinv : Inv handlers₀ stack w) {h h' : H}
    {front back : List (Entry H E)}
    (hlog : (w.note (.registering h)).log = front ++ .registering h' :: back)
    (hpos : 0 < active front) : front = w.log ∧ back = [] := by
  rcases split_concat hlog with ⟨rfl, -⟩ | ⟨rest, hrest⟩
  · have hend : h' = h ∧ back = [] := by simpa [World.note] using hlog.symm
    exact ⟨rfl, hend.2⟩
  · exact absurd hpos (hinv.not_active hrest)

theorem Inv.panicked_deliveries (hinv : Inv handlers₀ stack w) {h : H}
    {front back : List (Entry H E)} {id : ℕ} {event : E}
    (hlog : (w.note (.registering h)).log = front ++ .started id event :: back) :
    deliveries id (w.note (.registering h)).log <+: (handlers₀ ++ registered front).map (·, event) ∧
      (.finished id ∈ (w.note (.registering h)).log →
        deliveries id (w.note (.registering h)).log =
          (handlers₀ ++ registered front).map (·, event)) := by
  obtain ⟨rest, hrest⟩ := started_or (by simp) hlog
  obtain ⟨hle, hfin⟩ := hinv.deliveries_prefix hrest
  constructor
  · simpa [World.note] using hle
  · intro hmem
    simpa [World.note] using hfin (by simpa [World.note] using hmem)

/-- A run panics exactly where it registers a handler while a dispatch is
active.  That changes no handler list, and however the run ends, a dispatch
invokes only handlers registered before it, in order and once, and all of them
once it completes. -/
theorem register_panics_iff (handlers₀ : List H) (cs : List (Call H E)) :
    let r := runAll cs (World.start handlers₀)
    ((∃ w, r = .error w) ↔ ∃ front h back,
      (final r).log = front ++ .registering h :: back ∧ 0 < active front) ∧
    (∀ front h back, (final r).log = front ++ .registering h :: back → 0 < active front →
      back = [] ∧ (final r).handlers.value = handlers₀ ++ registered front) ∧
    ((∃ w, r = .ok w) → (final r).handlers =
      { value := handlers₀ ++ registered (final r).log, flag := .shared 0 }) ∧
    ∀ front id event back, (final r).log = front ++ .started id event :: back →
      deliveries id (final r).log <+: (handlers₀ ++ registered front).map (·, event) ∧
      ((∃ w, r = .ok w) ∨ .finished id ∈ (final r).log →
        deliveries id (final r).log = (handlers₀ ++ registered front).map (·, event)) := by
  intro r
  have hkeeps : Keeps handlers₀ [] r := keeps_runAll cs [] _ (inv_start handlers₀)
  cases hr : r with
  | ok w =>
      have hinv : Inv handlers₀ [] w := by
        rw [hr] at hkeeps
        exact hkeeps
      refine ⟨⟨?_, ?_⟩, ?_, ?_, ?_⟩
      · rintro ⟨v, hv⟩
        cases hv
      · rintro ⟨front, h, back, hlog, hactive⟩
        exact absurd hactive (hinv.not_active hlog)
      · intro front h back hlog hactive
        exact absurd hactive (hinv.not_active hlog)
      · intro _
        change w.handlers = { value := handlers₀ ++ registered w.log, flag := .shared 0 }
        rw [← hinv.value]
        exact congrArg (RefCell.mk w.handlers.value) hinv.flag
      · intro front id event back hlog
        have hall := hinv.delivered hlog
        exact ⟨hall ▸ List.prefix_refl _, fun _ ↦ hall⟩
  | error w' =>
      rw [hr] at hkeeps
      obtain ⟨stack, w, h, hstack, hinv, rfl⟩ := hkeeps
      have hactive : 0 < active w.log := by
        rw [hinv.log.active]
        exact List.length_pos_iff.mpr hstack
      refine ⟨⟨fun _ ↦ ⟨w.log, h, [], rfl, hactive⟩, fun _ ↦ ⟨_, rfl⟩⟩, ?_, ?_, ?_⟩
      · intro front h' back hlog hpos
        obtain ⟨rfl, rfl⟩ := hinv.panicked_registering hlog hpos
        exact ⟨rfl, hinv.value⟩
      · rintro ⟨v, hv⟩
        cases hv
      · intro front id event back hlog
        obtain ⟨hle, hfin⟩ := hinv.panicked_deliveries hlog
        refine ⟨hle, ?_⟩
        rintro (⟨v, hv⟩ | hmem)
        · cases hv
        · exact hfin hmem

/-- A handler that registers another one from its body. -/
theorem register_in_handler_panics :
    ∃ w, runAll [.registerHandler 'a', .dispatch 0 fun _ ↦ [.registerHandler 'b']]
      (World.start [] : World Char ℕ) = .error w :=
  ⟨_, rfl⟩

end BaizeBoard.EventBus
