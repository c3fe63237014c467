import PqFl.Configuration
import PqFl.GlobalModelStream

/-!
# The completion events of streams

The server with its stream calls. Every operation of a call has a tag which the
completion queue gives back once: a thread takes the tag out of the queue, and
handles it when it gets `proceed_mutex_`, so tags may be handled in another
order than they were taken out. A request matches a listener before the
shutdown, and a call that was never matched is never done.
-/

set_option autoImplicit false

namespace PqFl.Streams
open PqFl.Identifiers PqFl.ClientRegistry PqFl.Aggregation PqFl.Buffer PqFl.Services PqFl.Process
open PqFl.Runs PqFl.Floats PqFl.Configuration

/-- The event that the tag of an operation carries; cancelling an alarm has no tag. -/
def Operation.tag : Operation → Option StreamEvent
  | .notifyWhenDone => some .done
  | .requestCall => some .request
  | .write _ => some .write
  | .setAlarm => some .alarm
  | .cancelAlarm => none
  | .finish _ => some .finish

def Operation.update : Operation → Option GlobalModelUpdate
  | .write update => some update
  | _ => none

def started (p : Proceeded) : List StreamEvent := p.operations.filterMap Operation.tag

/-- A call object, none once it is deleted, with the tags that are not taken
out of the queue, the tags which threads hold, and what it wrote. -/
structure Slot where
  call : Option StreamGlobalModelCall
  outstanding : List StreamEvent
  held : List (StreamEvent × Bool)
  matched : Bool
  sent : List GlobalModelUpdate

def Slot.inFlight (slot : Slot) : List StreamEvent := slot.outstanding ++ slot.held.map (·.1)

def listener : Slot :=
  ⟨newStreamGlobalModelCall.call, started newStreamGlobalModelCall, [], false, []⟩

structure StreamServer (F : Type) where
  server : Server F
  slots : List Slot
  shutDown : Bool
  handledAfterDelete : Bool

inductive StreamAction (F : Type) where
  | serve (a : Action F)
  | arrive (i : ℕ) (q : ModelRequest) (peer : Peer)
  | dequeue (i : ℕ) (event : StreamEvent) (ok : Bool)
  | handle (i : ℕ) (event : StreamEvent) (ok : Bool) (o : StreamOracle)
  | shutDown

variable {F : Type}

/-- The flags and the status of an object against its tags in flight. -/
structure Tracked (flying : List StreamEvent) (c : StreamGlobalModelCall) : Prop where
  nodup : flying.Nodup
  start : StreamEvent.start ∉ flying
  request : StreamEvent.request ∈ flying ↔ c.status = .process
  done : StreamEvent.done ∈ flying ↔ c.doneNotifyInFlight = true
  write : StreamEvent.write ∈ flying ↔ c.writeInFlight = true
  alarm : StreamEvent.alarm ∈ flying ↔ c.alarmInFlight = true
  finish : StreamEvent.finish ∈ flying ↔ c.finishInFlight = true
  received : c.doneReceived = !c.doneNotifyInFlight
  created : c.status ≠ .create
  listening : c.status = .process → c.writeInFlight = false ∧ c.alarmInFlight = false ∧
    c.finishInFlight = false ∧ c.doneReceived = false
  streaming : c.status = .stream → c.finishInFlight = false ∧
    (c.writeInFlight = false ∨ c.alarmInFlight = false)
  finishing : c.status = .finish → c.writeInFlight = false ∧ c.alarmInFlight = false

/-- A stream that nothing but the notification keeps. -/
structure Idle (c : StreamGlobalModelCall) : Prop where
  status : c.status = .stream
  notify : c.doneNotifyInFlight = true
  received : c.doneReceived = false
  write : c.writeInFlight = false
  alarm : c.alarmInFlight = false
  finish : c.finishInFlight = false

theorem served_tracked {latest : LatestModelSnapshot F} {c : StreamGlobalModelCall}
    {p : Proceeded} (h : Idle c) (hp : Served latest c p) :
    p.spawned = false ∧ ∃ c', p.call = some c' ∧ Tracked (.done :: started p) c' := by
  obtain ⟨hstatus, hnotify, hreceived, hwrite, halarm, hfinish⟩ := h
  cases hp with
  | waited _ =>
    refine ⟨rfl, _, rfl, ?_⟩
    constructor <;> simp [started, Operation.tag, *]
  | wrote update _ _ =>
    refine ⟨rfl, _, rfl, ?_⟩
    constructor <;> simp [started, Operation.tag, *]
  | finished code message =>
    refine ⟨rfl, _, rfl, ?_⟩
    constructor <;> simp [started, Operation.tag, finishWithStatus, *]

variable [FloatArith F]

/-- A request reaches the listener, which has it once its tag is handled. -/
def arriveAt (slot : Slot) (q : ModelRequest) (peer : Peer) : Slot :=
  { slot with
    call := slot.call.map (fun c => { c with request := q, peer := peer })
    matched := true }

/-- Whether the queue may give a tag with this result. -/
def available (shutDown : Bool) (slot : Slot) (event : StreamEvent) (ok : Bool) : Bool :=
  slot.outstanding.contains event &&
    match event with
    | .request => ok == slot.matched && (slot.matched || shutDown)
    | .done => slot.matched
    | _ => true

def dequeueFrom (slot : Slot) (event : StreamEvent) (ok : Bool) : Slot :=
  { slot with outstanding := slot.outstanding.erase event, held := slot.held ++ [(event, ok)] }

def handled (slot : Slot) (event : StreamEvent) (ok : Bool) (p : Proceeded) : Slot :=
  { slot with
    call := p.call
    outstanding := slot.outstanding ++ started p
    held := slot.held.erase (event, ok)
    sent := slot.sent ++ p.operations.filterMap Operation.update }

/-- A thread handles a tag that it holds. What it does with a deleted object is undefined. -/
def handle (d : Deployment F) (s : StreamServer F) (i : ℕ) (slot : Slot) (event : StreamEvent)
    (ok : Bool) (o : StreamOracle) : Option (StreamServer F) :=
  match slot.call with
  | none => some { s with
      slots := s.slots.set i { slot with held := slot.held.erase (event, ok) }
      handledAfterDelete := true }
  | some c =>
    match proceed d s.server.world c ok event o with
    | .error _ => none
    | .ok p => some { s with
        slots := s.slots.set i (handled slot event ok p) ++ if p.spawned then [listener] else [] }

/-- One step; a restart ends all streams and leaves the first listener. -/
def streamStep (d : Deployment F) (s : StreamServer F) : StreamAction F → Option (StreamServer F)
  | .serve a => (step d s.server a).map (fun server => match a with
      | .restart _ => { s with server := server, slots := [listener], shutDown := false }
      | _ => { s with server := server })
  | .arrive i q peer => s.slots[i]?.bind (fun slot =>
      if !s.shutDown && !slot.matched && slot.outstanding.contains .request then
        some { s with slots := s.slots.set i (arriveAt slot q peer) }
      else none)
  | .dequeue i event ok => s.slots[i]?.bind (fun slot =>
      if available s.shutDown slot event ok then
        some { s with slots := s.slots.set i (dequeueFrom slot event ok) }
      else none)
  | .handle i event ok o => s.slots[i]?.bind (fun slot =>
      if s.server.federated.isNone && slot.held.contains (event, ok) then
        handle d s i slot event ok o
      else none)
  | .shutDown => some { s with shutDown := true }

def initialStreams (d : Deployment F) (start : Start) : StreamServer F :=
  ⟨initial d start, [listener], false, false⟩

theorem Tracked.perm {flying flying' : List StreamEvent} {c : StreamGlobalModelCall}
    (h : Tracked flying c) (hperm : flying.Perm flying') : Tracked flying' c where
  nodup := hperm.nodup_iff.mp h.nodup
  start := fun hmem => h.start (hperm.mem_iff.mpr hmem)
  request := hperm.mem_iff.symm.trans h.request
  done := hperm.mem_iff.symm.trans h.done
  write := hperm.mem_iff.symm.trans h.write
  alarm := hperm.mem_iff.symm.trans h.alarm
  finish := hperm.mem_iff.symm.trans h.finish
  received := h.received
  created := h.created
  listening := h.listening
  streaming := h.streaming
  finishing := h.finishing

theorem eq_singleton {l : List StreamEvent} {e : StreamEvent} (hnodup : l.Nodup) (he : e ∈ l)
    (hall : ∀ x ∈ l, x = e) : l = [e] := by
  cases l with
  | nil => cases he
  | cons x rest =>
    obtain rfl := hall x List.mem_cons_self
    congr 1
    apply List.eq_nil_iff_forall_not_mem.mpr
    intro y hy
    obtain rfl := hall y (List.mem_cons_of_mem _ hy)
    exact (List.nodup_cons.mp hnodup).1 hy

theorem maybeDelete_tracked {flying : List StreamEvent} {c : StreamGlobalModelCall}
    (h : Tracked flying c) : maybeDeleteAfterTerminalEvent c = some c ∨
      (maybeDeleteAfterTerminalEvent c = none ∧ flying = []) := by
  unfold maybeDeleteAfterTerminalEvent
  split
  · exact .inl rfl
  · rename_i hflags
    split
    · rename_i hended
      refine .inr ⟨rfl, List.eq_nil_iff_forall_not_mem.mpr ?_⟩
      simp only [Bool.or_eq_true, not_or, Bool.not_eq_true] at hflags
      intro e he
      cases e with
      | start => exact h.start he
      | request =>
        have hprocess := h.request.mp he
        have hreceived := (h.listening hprocess).2.2.2
        rw [hreceived, hprocess] at hended
        exact absurd hended (by decide)
      | write => exact absurd (h.write.mp he) (by simp [hflags])
      | alarm => exact absurd (h.alarm.mp he) (by simp [hflags])
      | finish => exact absurd (h.finish.mp he) (by simp [hflags])
      | done => exact absurd (h.done.mp he) (by simp [hflags])
    · exact .inl rfl

/-- What handling an event leaves when `rest` stays in flight: the object keeps
track of its tags, it goes with nothing in flight, a listener goes at the
shutdown, or a call goes that was done before its request was handled. -/
inductive Handles (event : StreamEvent) (ok : Bool) (rest : List StreamEvent) (p : Proceeded) : Prop
  | stays (c : StreamGlobalModelCall) (hcall : p.call = some c)
      (h : Tracked (rest ++ started p) c) (hspawned : p.spawned = (event == .request))
      (hok : event = .request → ok = true)
  | ended (hcall : p.call = none) (hstarted : started p = []) (hspawned : p.spawned = false)
      (hrest : rest = []) (hevent : event ≠ .request)
  | refused (hcall : p.call = none) (hstarted : started p = []) (hspawned : p.spawned = false)
      (hrest : rest = [.done]) (hevent : event = .request) (hok : ok = false)
  | early (hcall : p.call = none) (hstarted : started p = []) (hspawned : p.spawned = false)
      (hrest : rest = [.request]) (hevent : event = .done)

theorem handles_of_tracked {event : StreamEvent} {ok : Bool} {rest : List StreamEvent}
    {c : StreamGlobalModelCall} {operations : List Operation} (h : Tracked rest c)
    (hstarted : operations.filterMap Operation.tag = []) (hevent : event ≠ .request) :
    Handles event ok rest ⟨maybeDeleteAfterTerminalEvent c, operations, false⟩ := by
  rcases maybeDelete_tracked h with hstays | ⟨hgone, hrest⟩
  · refine .stays c hstays ?_ (beq_false_of_ne hevent).symm (fun heq => absurd heq hevent)
    unfold started
    rwa [hstarted, List.append_nil]
  · exact .ended hgone hstarted rfl hrest hevent

theorem Tracked.idle_rest {flying : List StreamEvent} {c : StreamGlobalModelCall}
    (h : Tracked flying c) (hidle : Idle c) : flying = [.done] := by
  apply eq_singleton h.nodup (h.done.mpr hidle.notify)
  intro x hx
  cases x with
  | start => exact absurd hx h.start
  | request => exact absurd (h.request.mp hx) (by simp [hidle.status])
  | write => exact absurd (h.write.mp hx) (by simp [hidle.write])
  | alarm => exact absurd (h.alarm.mp hx) (by simp [hidle.alarm])
  | finish => exact absurd (h.finish.mp hx) (by simp [hidle.finish])
  | done => rfl

theorem serve_handles {d : Deployment F} {w : World F} {c : StreamGlobalModelCall}
    {o : StreamOracle} {p : Proceeded} {event : StreamEvent} {ok spawned : Bool}
    {rest : List StreamEvent} (h : Tracked rest c) (hidle : Idle c)
    (hspawned : spawned = (event == .request)) (hok : event = .request → ok = true)
    (hp : serve d w c o = .ok p) :
    p.spawned = false ∧ Handles event ok rest { p with spawned := spawned } := by
  obtain ⟨hnone, c', hcall, htracked⟩ := served_tracked hidle (serve_served hidle.received hp)
  refine ⟨hnone, .stays c' hcall ?_ hspawned hok⟩
  rw [h.idle_rest hidle]
  exact htracked

theorem Tracked.withoutWrite {rest : List StreamEvent} {c : StreamGlobalModelCall}
    (h : Tracked (.write :: rest) c) : Tracked rest { c with writeInFlight := false } where
  nodup := (List.nodup_cons.mp h.nodup).2
  start := fun hmem => h.start (List.mem_cons_of_mem _ hmem)
  request := by simpa using h.request
  done := by simpa using h.done
  write := by simpa using (List.nodup_cons.mp h.nodup).1
  alarm := by simpa using h.alarm
  finish := by simpa using h.finish
  received := h.received
  created := h.created
  listening := fun hs => ⟨rfl, (h.listening hs).2⟩
  streaming := fun hs => ⟨(h.streaming hs).1, .inl rfl⟩
  finishing := fun hs => ⟨rfl, (h.finishing hs).2⟩

theorem Tracked.withoutAlarm {rest : List StreamEvent} {c : StreamGlobalModelCall}
    (h : Tracked (.alarm :: rest) c) : Tracked rest { c with alarmInFlight := false } where
  nodup := (List.nodup_cons.mp h.nodup).2
  start := fun hmem => h.start (List.mem_cons_of_mem _ hmem)
  request := by simpa using h.request
  done := by simpa using h.done
  write := by simpa using h.write
  alarm := by simpa using (List.nodup_cons.mp h.nodup).1
  finish := by simpa using h.finish
  received := h.received
  created := h.created
  listening := fun hs => ⟨(h.listening hs).1, rfl, (h.listening hs).2.2⟩
  streaming := fun hs => ⟨(h.streaming hs).1, .inr rfl⟩
  finishing := fun hs => ⟨(h.finishing hs).1, rfl⟩

theorem Tracked.withoutFinish {rest : List StreamEvent} {c : StreamGlobalModelCall}
    (h : Tracked (.finish :: rest) c) : Tracked rest { c with finishInFlight := false } where
  nodup := (List.nodup_cons.mp h.nodup).2
  start := fun hmem => h.start (List.mem_cons_of_mem _ hmem)
  request := by simpa using h.request
  done := by simpa using h.done
  write := by simpa using h.write
  alarm := by simpa using h.alarm
  finish := by simpa using (List.nodup_cons.mp h.nodup).1
  received := h.received
  created := h.created
  listening := fun hs => ⟨(h.listening hs).1, (h.listening hs).2.1, rfl, (h.listening hs).2.2.2⟩
  streaming := fun hs => ⟨rfl, (h.streaming hs).2⟩
  finishing := h.finishing

theorem Tracked.withoutDone {rest : List StreamEvent} {c : StreamGlobalModelCall}
    (h : Tracked (.done :: rest) c) (hstatus : c.status ≠ .process) :
    Tracked rest { c with doneNotifyInFlight := false, doneReceived := true } where
  nodup := (List.nodup_cons.mp h.nodup).2
  start := fun hmem => h.start (List.mem_cons_of_mem _ hmem)
  request := by simpa using h.request
  done := by simpa using (List.nodup_cons.mp h.nodup).1
  write := by simpa using h.write
  alarm := by simpa using h.alarm
  finish := by simpa using h.finish
  received := rfl
  created := h.created
  listening := fun hs => absurd hs hstatus
  streaming := h.streaming
  finishing := h.finishing

theorem Tracked.withoutRequest {rest : List StreamEvent} {c : StreamGlobalModelCall}
    (h : Tracked (.request :: rest) c) : Tracked rest { c with status := .stream } where
  nodup := (List.nodup_cons.mp h.nodup).2
  start := fun hmem => h.start (List.mem_cons_of_mem _ hmem)
  request := by simpa using (List.nodup_cons.mp h.nodup).1
  done := by simpa using h.done
  write := by simpa using h.write
  alarm := by simpa using h.alarm
  finish := by simpa using h.finish
  received := h.received
  created := by simp
  listening := by simp
  streaming := fun _ =>
    have hs := h.listening (h.request.mp List.mem_cons_self)
    ⟨hs.2.2.1, .inl hs.1⟩
  finishing := by simp

theorem Tracked.idle_of_request {rest : List StreamEvent} {c : StreamGlobalModelCall}
    (h : Tracked (.request :: rest) c) : Idle { c with status := .stream } := by
  obtain ⟨hwrite, halarm, hfinish, hreceived⟩ := h.listening (h.request.mp List.mem_cons_self)
  exact ⟨rfl, by simpa [hreceived] using h.received, hreceived, hwrite, halarm, hfinish⟩

theorem Tracked.status_stream {flying : List StreamEvent} {c : StreamGlobalModelCall}
    (h : Tracked flying c) (hflag : c.writeInFlight = true ∨ c.alarmInFlight = true) :
    c.status = .stream := by
  cases hs : c.status with
  | create => exact absurd hs h.created
  | process =>
    obtain ⟨hwrite, halarm, -, -⟩ := h.listening hs
    simp [hwrite, halarm] at hflag
  | stream => rfl
  | finish =>
    obtain ⟨hwrite, halarm⟩ := h.finishing hs
    simp [hwrite, halarm] at hflag

theorem resumed_handles {d : Deployment F} {w : World F} {c : StreamGlobalModelCall} {ok : Bool}
    {event : StreamEvent} {o : StreamOracle} {p : Proceeded} {rest : List StreamEvent}
    (h : Tracked rest c) (hevent : event ≠ .request) (hstatus : c.status = .stream)
    (hwrite : c.writeInFlight = false) (halarm : c.alarmInFlight = false)
    (hp : (if !ok || c.doneReceived then
        .ok { call := maybeDeleteAfterTerminalEvent c } else proceedStatus d w c o) = .ok p) :
    Handles event ok rest p := by
  split at hp
  · cases hp
    exact handles_of_tracked h rfl hevent
  · rename_i hgoes
    simp only [Bool.or_eq_true, not_or, Bool.not_eq_true] at hgoes
    have hidle : Idle c := ⟨hstatus, by simpa [hgoes.2] using h.received, hgoes.2, hwrite, halarm,
      (h.streaming hstatus).1⟩
    simp only [proceedStatus, hstatus] at hp
    obtain ⟨hspawned, hhandles⟩ : p.spawned = false ∧
        Handles event ok rest { p with spawned := false } :=
      serve_handles h hidle (beq_false_of_ne hevent).symm (fun heq => absurd heq hevent) hp
    obtain ⟨call, operations, spawned⟩ := p
    cases hspawned
    exact hhandles

theorem proceed_handles {d : Deployment F} {w : World F} {c : StreamGlobalModelCall} {ok : Bool}
    {event : StreamEvent} {o : StreamOracle} {p : Proceeded} {rest : List StreamEvent}
    (h : Tracked (event :: rest) c) (hp : proceed d w c ok event o = .ok p) :
    Handles event ok rest p := by
  cases event with
  | start => exact absurd List.mem_cons_self h.start
  | finish =>
    cases hp
    exact handles_of_tracked h.withoutFinish rfl (by decide)
  | done =>
    have hcancel : (if c.alarmInFlight then [Operation.cancelAlarm] else []).filterMap
        Operation.tag = [] := by
      split
      · rfl
      · rfl
    cases hp
    by_cases hstatus : c.status = .process
    · obtain ⟨hwrite, halarm, hfinish, -⟩ := h.listening hstatus
      have hrest : rest = [.request] := by
        have hnodup := List.nodup_cons.mp h.nodup
        apply eq_singleton hnodup.2
        · simpa using h.request.mpr hstatus
        · intro x hx
          have hx' := List.mem_cons_of_mem StreamEvent.done hx
          cases x with
          | start => exact absurd hx' h.start
          | request => rfl
          | write => exact absurd (h.write.mp hx') (by simp [hwrite])
          | alarm => exact absurd (h.alarm.mp hx') (by simp [halarm])
          | finish => exact absurd (h.finish.mp hx') (by simp [hfinish])
          | done => exact absurd hx hnodup.1
      refine .early ?_ hcancel rfl hrest rfl
      simp [maybeDeleteAfterTerminalEvent, hwrite, halarm, hfinish]
    · exact handles_of_tracked (h.withoutDone hstatus) hcancel (by decide)
  | write =>
    have hflag := h.write.mp List.mem_cons_self
    have hstatus := h.status_stream (.inl hflag)
    have halarm := (h.streaming hstatus).2.resolve_left (by simp [hflag])
    exact resumed_handles h.withoutWrite (by decide) hstatus rfl halarm hp
  | alarm =>
    have hflag := h.alarm.mp List.mem_cons_self
    have hstatus := h.status_stream (.inr hflag)
    have hwrite := (h.streaming hstatus).2.resolve_right (by simp [hflag])
    exact resumed_handles h.withoutAlarm (by decide) hstatus hwrite rfl hp
  | request =>
    have hidle := h.idle_of_request
    cases ok with
    | false =>
      cases hp
      exact .refused rfl rfl rfl (h.withoutRequest.idle_rest hidle) rfl rfl
    | true =>
      have hstatus := h.request.mp List.mem_cons_self
      rcases proceed_matched hstatus hp with ⟨code, message, rfl⟩ | ⟨p', hserved, rfl⟩
      · rw [h.withoutRequest.idle_rest hidle]
        obtain ⟨-, hnotify, hreceived, hwrite, halarm, hfinish⟩ := hidle
        refine .stays _ rfl ?_ rfl (fun _ => rfl)
        constructor <;> simp_all [started, Operation.tag, finishWithStatus]
      · exact (serve_handles h.withoutRequest hidle rfl (fun _ => rfl) hserved).2

end PqFl.Streams
