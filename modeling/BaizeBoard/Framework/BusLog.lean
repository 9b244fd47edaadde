import BaizeBoard.Framework.Bus

/-!
# The log of a bus and the stack of its active dispatches

`Delivered` ties the log to the stack: an active dispatch has made the
invocations of its frame and owes the rest, a finished one has made them all.
There is one lemma for each entry that the bus can log.
-/

namespace BaizeBoard.EventBus

variable {H E : Type}

def Entry.registers? : Entry H E → Option H
  | .registering handler => some handler
  | _ => none

def Entry.delivers? (id : ℕ) : Entry H E → Option (H × E)
  | .invoked id' handler event => if id' = id then some (handler, event) else none
  | _ => none

def Entry.invokes? : Entry H E → Option (H × E)
  | .invoked _ handler event => some (handler, event)
  | _ => none

def registered (log : List (Entry H E)) : List H := log.filterMap Entry.registers?

def deliveries (id : ℕ) (log : List (Entry H E)) : List (H × E) :=
  log.filterMap (Entry.delivers? id)

def invocations (log : List (Entry H E)) : List (H × E) := log.filterMap Entry.invokes?

/-- How many dispatches have started and not finished. -/
def active (log : List (Entry H E)) : ℕ :=
  log.foldl (fun n entry ↦
    match entry with
    | .started _ _ => n + 1
    | .finished _ => n - 1
    | _ => n) 0

section Concat

variable (log : List (Entry H E)) (handler : H) (event : E) (id id' : ℕ)

@[simp] theorem registered_registering :
    registered (log ++ [.registering handler]) = registered log ++ [handler] := by
  simp [registered, Entry.registers?]

@[simp] theorem registered_started :
    registered (log ++ [.started id event]) = registered log := by
  simp [registered, Entry.registers?]

@[simp] theorem registered_invoked :
    registered (log ++ [.invoked id handler event]) = registered log := by
  simp [registered, Entry.registers?]

@[simp] theorem registered_finished :
    registered (log ++ [.finished id]) = registered log := by
  simp [registered, Entry.registers?]

@[simp] theorem deliveries_registering :
    deliveries id (log ++ [.registering handler]) = deliveries id log := by
  simp [deliveries, Entry.delivers?]

@[simp] theorem deliveries_started :
    deliveries id (log ++ [.started id' event]) = deliveries id log := by
  simp [deliveries, Entry.delivers?]

@[simp] theorem deliveries_finished :
    deliveries id (log ++ [.finished id']) = deliveries id log := by
  simp [deliveries, Entry.delivers?]

@[simp] theorem deliveries_invoked_self :
    deliveries id (log ++ [.invoked id handler event]) =
      deliveries id log ++ [(handler, event)] := by
  simp [deliveries, Entry.delivers?]

theorem deliveries_invoked_of_ne (h : id' ≠ id) :
    deliveries id (log ++ [.invoked id' handler event]) = deliveries id log := by
  simp [deliveries, Entry.delivers?, h]

@[simp] theorem active_registering :
    active (log ++ [.registering handler]) = active log := by
  simp [active]

@[simp] theorem active_started : active (log ++ [.started id event]) = active log + 1 := by
  simp [active]

@[simp] theorem active_invoked :
    active (log ++ [.invoked id handler event]) = active log := by
  simp [active]

@[simp] theorem active_finished : active (log ++ [.finished id]) = active log - 1 := by
  simp [active]

@[simp] theorem invocations_registering :
    invocations (log ++ [.registering handler]) = invocations log := by
  simp [invocations, Entry.invokes?]

@[simp] theorem invocations_started :
    invocations (log ++ [.started id event]) = invocations log := by
  simp [invocations, Entry.invokes?]

@[simp] theorem invocations_invoked :
    invocations (log ++ [.invoked id handler event]) = invocations log ++ [(handler, event)] := by
  simp [invocations, Entry.invokes?]

@[simp] theorem invocations_finished :
    invocations (log ++ [.finished id]) = invocations log := by
  simp [invocations, Entry.invokes?]

end Concat

/-- Where an entry stands in a log with one more entry. -/
theorem split_concat {α : Type} {l front back : List α} {x y : α}
    (h : l ++ [x] = front ++ y :: back) :
    (front = l ∧ y = x) ∨ ∃ rest, l = front ++ y :: rest := by
  rcases List.eq_nil_or_concat back with rfl | ⟨rest, z, rfl⟩
  · obtain ⟨hfront, hy⟩ := List.append_inj' h rfl
    exact .inl ⟨hfront.symm, (List.cons.inj hy).1.symm⟩
  · rw [List.concat_eq_append, ← List.cons_append, ← List.append_assoc] at h
    exact .inr ⟨rest, (List.append_inj' h rfl).1⟩

theorem concat_split {α : Type} {l front back : List α} {y : α} (h : l = front ++ y :: back)
    (x : α) : l ++ [x] = front ++ y :: (back ++ [x]) := by
  simp [h]

theorem started_or {log front back : List (Entry H E)} {entry : Entry H E} {id : ℕ} {event : E}
    (hentry : entry ≠ .started id event)
    (h : log ++ [entry] = front ++ .started id event :: back) :
    ∃ rest, log = front ++ .started id event :: rest := by
  rcases split_concat h with ⟨-, heq⟩ | hrest
  · exact absurd heq.symm hentry
  · exact hrest

/-! ## The stack -/

/-- An active dispatch: the handlers it has invoked, and those it owes. -/
structure Frame (H E : Type) where
  id : ℕ
  event : E
  done : List H
  todo : List H

/-- The dispatch of a frame has started in the log, with the handlers that were
registered then, and made the invocations that are done. -/
structure Frame.Open (f : Frame H E) (handlers : List H) (log : List (Entry H E)) : Prop where
  started : ∃ front back, log = front ++ .started f.id f.event :: back ∧
    f.done ++ f.todo = handlers ++ registered front
  deliveries : EventBus.deliveries f.id log = f.done.map (·, f.event)
  unfinished : .finished f.id ∉ log

theorem Frame.Open.concat {f : Frame H E} {handlers : List H} {log : List (Entry H E)}
    (h : f.Open handlers log) {entry : Entry H E} (hfin : entry ≠ .finished f.id)
    (hdel : EventBus.deliveries f.id (log ++ [entry]) = EventBus.deliveries f.id log) :
    f.Open handlers (log ++ [entry]) := by
  obtain ⟨⟨front, back, hlog, hdue⟩, hdone, hunfinished⟩ := h
  refine ⟨⟨front, _, concat_split hlog entry, hdue⟩, hdel.trans hdone, ?_⟩
  rw [List.mem_append, List.mem_singleton, not_or]
  exact ⟨hunfinished, Ne.symm hfin⟩

/-- The log of a bus that began with `handlers`, while the dispatches of the
stack are active. -/
structure Delivered (handlers : List H) (stack : List (Frame H E)) (log : List (Entry H E)) :
    Prop where
  active : EventBus.active log = stack.length
  calm : ∀ front h back, log = front ++ .registering h :: back → EventBus.active front = 0
  name : ∀ front id event back, log = front ++ .started id event :: back → id = front.length
  fresh : ∀ id, log.length ≤ id → deliveries id log = [] ∧ .finished id ∉ log
  distinct : (stack.map Frame.id).Nodup
  frames : ∀ f ∈ stack, f.Open handlers log
  complete : ∀ front id event back, log = front ++ .started id event :: back →
    id ∈ stack.map Frame.id ∨ .finished id ∈ log ∧
      deliveries id log = (handlers ++ registered front).map (·, event)

namespace Delivered

variable {handlers : List H} {stack : List (Frame H E)} {log : List (Entry H E)}

theorem nil (handlers : List H) : Delivered handlers [] ([] : List (Entry H E)) where
  active := rfl
  calm front h back heq := by simp at heq
  name front id event back heq := by simp at heq
  fresh id _ := ⟨rfl, List.not_mem_nil⟩
  distinct := List.nodup_nil
  frames f hf := by cases hf
  complete front id event back heq := by simp at heq

theorem id_lt (h : Delivered handlers stack log) {f : Frame H E} (hf : f ∈ stack) :
    f.id < log.length := by
  obtain ⟨front, back, hlog, -⟩ := (h.frames f hf).started
  have hid := h.name front f.id f.event back hlog
  have hlen := congrArg List.length hlog
  simp only [List.length_append, List.length_cons] at hlen
  omega

theorem registering (h : Delivered handlers [] log) (handler : H) :
    Delivered handlers [] (log ++ [.registering handler]) where
  active := by simpa using h.active
  calm front h' back heq := by
    rcases split_concat heq with ⟨rfl, -⟩ | ⟨rest, hrest⟩
    · exact h.active
    · exact h.calm front h' rest hrest
  name front id event back heq := by
    obtain ⟨rest, hrest⟩ := started_or (by simp) heq
    exact h.name front id event rest hrest
  fresh id hid := by
    rw [List.length_append] at hid
    obtain ⟨hnone, hfin⟩ := h.fresh id (by omega)
    exact ⟨by simpa using hnone, by simpa using hfin⟩
  distinct := h.distinct
  frames f hf := by cases hf
  complete front id event back heq := by
    obtain ⟨rest, hrest⟩ := started_or (by simp) heq
    rcases h.complete front id event rest hrest with hmem | ⟨hfin, hall⟩
    · exact .inl hmem
    · exact .inr ⟨List.mem_append_left _ hfin, by simpa using hall⟩

theorem started (h : Delivered handlers stack log) (event : E) :
    Delivered handlers
      ({ id := log.length, event, done := [], todo := handlers ++ registered log } :: stack)
      (log ++ [.started log.length event]) where
  active := by simpa using h.active
  calm front h' back heq := by
    rcases split_concat heq with ⟨-, hentry⟩ | ⟨rest, hrest⟩
    · cases hentry
    · exact h.calm front h' rest hrest
  name front id event' back heq := by
    rcases split_concat heq with ⟨rfl, hentry⟩ | ⟨rest, hrest⟩
    · cases hentry
      rfl
    · exact h.name front id event' rest hrest
  fresh id hid := by
    rw [List.length_append] at hid
    obtain ⟨hnone, hfin⟩ := h.fresh id (by omega)
    exact ⟨by simpa using hnone, by simpa using hfin⟩
  distinct := by
    rw [List.map_cons, List.nodup_cons]
    refine ⟨?_, h.distinct⟩
    intro hmem
    obtain ⟨f, hf, hid⟩ := List.mem_map.mp hmem
    exact absurd (h.id_lt hf) (by simp only at hid; omega)
  frames f hf := by
    rcases List.mem_cons.mp hf with rfl | hf
    · obtain ⟨hnone, hfin⟩ := h.fresh log.length (Nat.le_refl _)
      exact ⟨⟨log, [], rfl, rfl⟩, by simpa using hnone, by simpa using hfin⟩
    · exact (h.frames f hf).concat (by simp) (by simp)
  complete front id event' back heq := by
    rcases split_concat heq with ⟨-, hentry⟩ | ⟨rest, hrest⟩
    · cases hentry
      exact .inl List.mem_cons_self
    · rcases h.complete front id event' rest hrest with hmem | ⟨hfin, hall⟩
      · exact .inl (List.mem_cons_of_mem _ hmem)
      · exact .inr ⟨List.mem_append_left _ hfin, by simpa using hall⟩

variable {f : Frame H E}

theorem id_ne_of_mem (h : Delivered handlers (f :: stack) log) {g : Frame H E} (hg : g ∈ stack) :
    f.id ≠ g.id := by
  intro heq
  have hdistinct := h.distinct
  rw [List.map_cons, List.nodup_cons] at hdistinct
  exact hdistinct.1 (heq ▸ List.mem_map_of_mem hg)

theorem invoked {id : ℕ} {event : E} {done todo : List H} {handler : H}
    (h : Delivered handlers ({ id, event, done, todo := handler :: todo } :: stack) log) :
    Delivered handlers ({ id, event, done := done ++ [handler], todo } :: stack)
      (log ++ [.invoked id handler event]) where
  active := by simpa using h.active
  calm front h' back heq := by
    rcases split_concat heq with ⟨-, hentry⟩ | ⟨rest, hrest⟩
    · cases hentry
    · exact h.calm front h' rest hrest
  name front id' event' back heq := by
    obtain ⟨rest, hrest⟩ := started_or (by simp) heq
    exact h.name front id' event' rest hrest
  fresh id' hid := by
    have hlt := h.id_lt List.mem_cons_self
    simp only at hlt
    rw [List.length_append] at hid
    obtain ⟨hnone, hfin⟩ := h.fresh id' (by omega)
    refine ⟨?_, by simpa using hfin⟩
    rw [deliveries_invoked_of_ne _ _ _ _ _ (by omega)]
    exact hnone
  distinct := h.distinct
  frames g hg := by
    rcases List.mem_cons.mp hg with rfl | hg
    · obtain ⟨⟨front, back, hlog, hdue⟩, hdone, hfin⟩ := h.frames _ List.mem_cons_self
      refine ⟨⟨front, _, concat_split hlog _, by simpa using hdue⟩, ?_, by simpa using hfin⟩
      simp only at hdone
      simp [hdone]
    · have hne : id ≠ g.id := h.id_ne_of_mem hg
      exact (h.frames g (List.mem_cons_of_mem _ hg)).concat (by simp)
        (deliveries_invoked_of_ne _ _ _ _ _ hne)
  complete front id' event' back heq := by
    obtain ⟨rest, hrest⟩ := started_or (by simp) heq
    rcases h.complete front id' event' rest hrest with hmem | ⟨hfin, hall⟩
    · exact .inl hmem
    · have hne : id ≠ id' := by
        rintro rfl
        exact (h.frames _ List.mem_cons_self).unfinished hfin
      refine .inr ⟨List.mem_append_left _ hfin, ?_⟩
      rw [deliveries_invoked_of_ne _ _ _ _ _ hne]
      exact hall

theorem finished {id : ℕ} {event : E} {done : List H}
    (h : Delivered handlers ({ id, event, done, todo := [] } :: stack) log) :
    Delivered handlers stack (log ++ [.finished id]) where
  active := by
    have hactive := h.active
    rw [List.length_cons] at hactive
    rw [active_finished]
    omega
  calm front h' back heq := by
    rcases split_concat heq with ⟨-, hentry⟩ | ⟨rest, hrest⟩
    · cases hentry
    · exact h.calm front h' rest hrest
  name front id' event' back heq := by
    obtain ⟨rest, hrest⟩ := started_or (by simp) heq
    exact h.name front id' event' rest hrest
  fresh id' hid := by
    have hlt := h.id_lt List.mem_cons_self
    simp only at hlt
    rw [List.length_append] at hid
    obtain ⟨hnone, hfin⟩ := h.fresh id' (by omega)
    refine ⟨by simpa using hnone, ?_⟩
    rw [List.mem_append, List.mem_singleton, not_or]
    exact ⟨hfin, by simp only [Entry.finished.injEq]; omega⟩
  distinct := (List.nodup_cons.mp h.distinct).2
  frames g hg := by
    have hne : id ≠ g.id := h.id_ne_of_mem hg
    exact (h.frames g (List.mem_cons_of_mem _ hg)).concat (by simpa using hne) (by simp)
  complete front id' event' back heq := by
    obtain ⟨rest, hrest⟩ := started_or (by simp) heq
    rcases h.complete front id' event' rest hrest with hmem | ⟨hfin, hall⟩
    · rcases List.mem_cons.mp hmem with rfl | hmem
      · -- The frame is the one that started there, as its name says.
        obtain ⟨⟨front', back', hlog, hdue⟩, hdone, -⟩ := h.frames _ List.mem_cons_self
        have hlen : front'.length = front.length :=
          (h.name _ _ _ _ hlog).symm.trans (h.name _ _ _ _ hrest)
        obtain ⟨rfl, hentry⟩ := List.append_inj (hlog.symm.trans hrest) hlen
        cases (List.cons.inj hentry).1
        refine .inr ⟨by simp, ?_⟩
        simp only [List.append_nil] at hdue hdone
        simp [hdone, hdue]
      · exact .inl hmem
    · exact .inr ⟨List.mem_append_left _ hfin, by simpa using hall⟩

end Delivered

end BaizeBoard.EventBus
