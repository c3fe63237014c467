import PqFl.ListUpdate
import PqFl.StreamEvents

/-!
# Streams are deleted safely

While an object lives its flags know its tags, so it goes only when none is
left; but the request that matched a listener has no flag. If the call is done
before its request is handled, the object goes while that tag is still to
come, and with it the only listener. In the runs in which this does not happen
no tag comes too late and there is always a listener.
-/

set_option autoImplicit false

namespace PqFl.Streams
open PqFl.Identifiers PqFl.Services PqFl.Process PqFl.ListUpdate PqFl.Runs PqFl.Floats
open PqFl.Configuration PqFl.Aggregation

variable {F : Type}

/-- The tags of an object, whether or not it still lives. -/
structure SlotSound (shutDown : Bool) (slot : Slot) : Prop where
  nodup : slot.inFlight.Nodup
  tracked : ∀ c, slot.call = some c → Tracked slot.inFlight c
  answered : ∀ ok, (StreamEvent.request, ok) ∈ slot.held →
    ok = slot.matched ∧ (ok = false → shutDown = true)
  unmatched : slot.matched = false →
    (∀ e ∈ slot.outstanding, e = .request ∨ e = .done) ∧ (∀ x ∈ slot.held, x.1 = .request) ∧
    ∀ c, slot.call = some c → c.status = .process

theorem listener_sound (shutDown : Bool) : SlotSound shutDown listener where
  nodup := by decide
  tracked c hc := by
    cases hc
    constructor <;> decide
  answered ok hmem := by cases hmem
  unmatched _ := by
    refine ⟨by decide, by decide, ?_⟩
    intro c hc
    cases hc
    rfl

def Sound (s : StreamServer F) : Prop := ∀ slot ∈ s.slots, SlotSound s.shutDown slot

theorem initialStreams_sound (d : Deployment F) (start : Start) : Sound (initialStreams d start) := by
  intro slot hslot
  obtain rfl := List.mem_singleton.mp hslot
  exact listener_sound false

/-- A slot whose object is gone never gives a tag again. -/
structure Buried (slot : Slot) : Prop where
  held : slot.held = []
  outstanding : ∀ e ∈ slot.outstanding, e = .done ∧ slot.matched = false

def Listens (slot : Slot) : Prop :=
  slot.call.isSome = true ∧ StreamEvent.request ∈ slot.inFlight

structure Secure (s : StreamServer F) : Prop where
  sound : Sound s
  notLate : s.handledAfterDelete = false
  buried : ∀ slot ∈ s.slots, slot.call = none → Buried slot
  listening : s.shutDown = false → ∃ slot ∈ s.slots, Listens slot

theorem listener_listens : Listens listener := ⟨rfl, by decide⟩

theorem initialStreams_secure (d : Deployment F) (start : Start) :
    Secure (initialStreams d start) := by
  refine ⟨initialStreams_sound d start, rfl, ?_, ?_⟩
  · intro slot hslot hgone
    obtain rfl := List.mem_singleton.mp hslot
    cases hgone
  · exact fun _ => ⟨listener, List.mem_singleton_self _, listener_listens⟩

variable [FloatArith F]

theorem Tracked.addressed {flying : List StreamEvent} {c : StreamGlobalModelCall}
    (h : Tracked flying c) (q : ModelRequest) (peer : Peer) :
    Tracked flying { c with request := q, peer := peer } :=
  ⟨h.nodup, h.start, h.request, h.done, h.write, h.alarm, h.finish, h.received, h.created,
    h.listening, h.streaming, h.finishing⟩

theorem arriveAt_sound {shutDown : Bool} {slot : Slot} (h : SlotSound shutDown slot)
    (hrequest : StreamEvent.request ∈ slot.outstanding) (q : ModelRequest) (peer : Peer) :
    SlotSound shutDown (arriveAt slot q peer) where
  nodup := h.nodup
  tracked c' hc' := by
    obtain ⟨c, hc, rfl⟩ := Option.map_eq_some_iff.mp hc'
    exact (h.tracked c hc).addressed q peer
  answered ok hmem := by
    have hheld : StreamEvent.request ∈ slot.held.map (·.1) := List.mem_map_of_mem hmem
    exact absurd rfl ((List.nodup_append.mp h.nodup).2.2 _ hrequest _ hheld)
  unmatched hfalse := by cases hfalse

theorem dequeueFrom_perm {slot : Slot} {event : StreamEvent} (ok : Bool)
    (h : event ∈ slot.outstanding) :
    slot.inFlight.Perm (dequeueFrom slot event ok).inFlight := by
  have herase := (List.perm_cons_erase h).append_right (slot.held.map (·.1))
  have hmoved : (event :: (slot.outstanding.erase event ++ slot.held.map (·.1))).Perm
      (slot.outstanding.erase event ++ slot.held.map (·.1) ++ [event]) :=
    (List.perm_append_singleton _ _).symm
  have hinFlight : (dequeueFrom slot event ok).inFlight =
      slot.outstanding.erase event ++ slot.held.map (·.1) ++ [event] := by
    simp [Slot.inFlight, dequeueFrom]
  rw [hinFlight]
  exact herase.trans hmoved

theorem available_iff {shutDown ok : Bool} {slot : Slot} {event : StreamEvent} :
    available shutDown slot event ok = true ↔ event ∈ slot.outstanding ∧
      (event = .request → ok = slot.matched ∧ (slot.matched = true ∨ shutDown = true)) ∧
      (event = .done → slot.matched = true) := by
  unfold available
  cases event <;> simp

theorem dequeueFrom_sound {shutDown ok : Bool} {slot : Slot} {event : StreamEvent}
    (h : SlotSound shutDown slot) (ha : available shutDown slot event ok = true) :
    SlotSound shutDown (dequeueFrom slot event ok) := by
  obtain ⟨hout, hrequest, hdone⟩ := available_iff.mp ha
  have hperm := dequeueFrom_perm ok hout
  refine ⟨hperm.nodup_iff.mp h.nodup, fun c hc => (h.tracked c hc).perm hperm, ?_, ?_⟩
  · intro ok' hmem
    rcases List.mem_append.mp hmem with hold | hnew
    · exact h.answered ok' hold
    · rw [List.mem_singleton, Prod.mk.injEq] at hnew
      obtain ⟨heq, hmatched⟩ := hrequest hnew.1.symm
      refine ⟨hnew.2.trans heq, fun hfalse => hmatched.resolve_left ?_⟩
      rw [← heq, ← hnew.2, hfalse]
      decide
  · intro hfalse
    obtain ⟨houtstanding, hheld, hstatus⟩ := h.unmatched hfalse
    refine ⟨fun e he => houtstanding e (List.mem_of_mem_erase he), ?_, hstatus⟩
    intro x hx
    rcases List.mem_append.mp hx with hold | hnew
    · exact hheld x hold
    · obtain rfl := List.mem_singleton.mp hnew
      have hmatched : ¬ event = .done := by
        intro heq
        cases (hdone heq).symm.trans hfalse
      exact (houtstanding event hout).resolve_right hmatched

def Slot.rest (slot : Slot) (event : StreamEvent) (ok : Bool) : List StreamEvent :=
  slot.outstanding ++ (slot.held.erase (event, ok)).map (·.1)

theorem inFlight_perm {slot : Slot} {event : StreamEvent} {ok : Bool}
    (h : (event, ok) ∈ slot.held) : slot.inFlight.Perm (event :: slot.rest event ok) := by
  have herase := ((List.perm_cons_erase h).map (·.1)).append_left slot.outstanding
  exact herase.trans List.perm_middle

theorem handled_perm {slot : Slot} {event : StreamEvent} {ok : Bool} {p : Proceeded} :
    (slot.rest event ok ++ started p).Perm (handled slot event ok p).inFlight := by
  show (slot.outstanding ++ (slot.held.erase (event, ok)).map (·.1) ++ started p).Perm
    (slot.outstanding ++ started p ++ (slot.held.erase (event, ok)).map (·.1))
  rw [List.append_assoc, List.append_assoc]
  exact List.perm_append_comm.append_left _

theorem handled_sound {d : Deployment F} {w : World F} {o : StreamOracle} {shutDown ok : Bool}
    {slot : Slot} {event : StreamEvent} {c : StreamGlobalModelCall} {p : Proceeded}
    (h : SlotSound shutDown slot) (hheld : (event, ok) ∈ slot.held) (hcall : slot.call = some c)
    (hp : proceed d w c ok event o = .ok p) :
    Handles event ok (slot.rest event ok) p ∧ SlotSound shutDown (handled slot event ok p) := by
  have hhandles := proceed_handles ((h.tracked c hcall).perm (inFlight_perm hheld)) hp
  refine ⟨hhandles, ?_⟩
  have hrest : (slot.rest event ok).Nodup :=
    (List.nodup_cons.mp ((inFlight_perm hheld).nodup_iff.mp h.nodup)).2
  have hnodup : (handled slot event ok p).inFlight.Nodup := by
    apply handled_perm.nodup_iff.mp
    cases hhandles with
    | stays _ _ htracked _ _ => exact htracked.nodup
    | ended _ hstarted _ _ _ => rwa [hstarted, List.append_nil]
    | refused _ hstarted _ _ _ _ => rwa [hstarted, List.append_nil]
    | early _ hstarted _ _ _ => rwa [hstarted, List.append_nil]
  refine ⟨hnodup, ?_, fun ok' hmem => h.answered ok' (List.mem_of_mem_erase hmem), ?_⟩
  · intro c' hc'
    cases hhandles with
    | stays c'' hcall'' htracked _ _ =>
      obtain rfl := Option.some.inj (hcall''.symm.trans hc')
      exact htracked.perm handled_perm
    | ended hnone _ _ _ _ => cases hnone.symm.trans hc'
    | refused hnone _ _ _ _ _ => cases hnone.symm.trans hc'
    | early hnone _ _ _ _ => cases hnone.symm.trans hc'
  · -- a tag of a call that was never matched is the refusal of its listener
    intro hfalse
    obtain ⟨houtstanding, hrequests, -⟩ := h.unmatched hfalse
    obtain rfl : event = .request := hrequests _ hheld
    obtain rfl : ok = false := (h.answered ok hheld).1.trans hfalse
    cases hhandles with
    | stays _ _ _ _ hok => exact absurd (hok rfl) (by decide)
    | ended _ _ _ _ hevent => exact absurd rfl hevent
    | refused hnone hstarted _ _ _ _ =>
      refine ⟨?_, fun x hx => hrequests x (List.mem_of_mem_erase hx), ?_⟩
      · intro e he
        apply houtstanding
        rwa [handled, hstarted, List.append_nil] at he
      · intro c' hc'
        cases hnone.symm.trans hc'
    | early _ _ _ _ hevent => cases hevent

theorem erased_sound {shutDown ok : Bool} {slot : Slot} {event : StreamEvent}
    (h : SlotSound shutDown slot) (hcall : slot.call = none) :
    SlotSound shutDown { slot with held := slot.held.erase (event, ok) } := by
  refine ⟨?_, ?_, fun ok' hmem => h.answered ok' (List.mem_of_mem_erase hmem), ?_⟩
  · exact h.nodup.sublist ((List.erase_sublist.map _).append_left _)
  · intro c hc
    cases hcall.symm.trans hc
  · intro hfalse
    obtain ⟨houtstanding, hheld, hstatus⟩ := h.unmatched hfalse
    exact ⟨houtstanding, fun x hx => hheld x (List.mem_of_mem_erase hx), hstatus⟩

/-- What a step of the server with its streams can be. -/
inductive StepResult (d : Deployment F) (s : StreamServer F) :
    StreamAction F → StreamServer F → Prop
  | served {a : Action F} {server : Server F} (h : step d s.server a = some server)
      (hrestart : ∀ start, a ≠ .restart start) :
      StepResult d s (.serve a) { s with server := server }
  | restarted {start : Start} {server : Server F}
      (h : step d s.server (.restart start) = some server) :
      StepResult d s (.serve (.restart start))
        { s with server := server, slots := [listener], shutDown := false }
  | arrived {i : ℕ} {q : ModelRequest} {peer : Peer} {slot : Slot}
      (hslot : s.slots[i]? = some slot) (hopen : s.shutDown = false)
      (hmatched : slot.matched = false) (hrequest : StreamEvent.request ∈ slot.outstanding) :
      StepResult d s (.arrive i q peer) { s with slots := s.slots.set i (arriveAt slot q peer) }
  | dequeued {i : ℕ} {event : StreamEvent} {ok : Bool} {slot : Slot}
      (hslot : s.slots[i]? = some slot) (ha : available s.shutDown slot event ok = true) :
      StepResult d s (.dequeue i event ok)
        { s with slots := s.slots.set i (dequeueFrom slot event ok) }
  | late {i : ℕ} {event : StreamEvent} {ok : Bool} {o : StreamOracle} {slot : Slot}
      (hslot : s.slots[i]? = some slot) (hheld : (event, ok) ∈ slot.held)
      (hcall : slot.call = none) : StepResult d s (.handle i event ok o) { s with
        slots := s.slots.set i { slot with held := slot.held.erase (event, ok) }
        handledAfterDelete := true }
  | handled {i : ℕ} {event : StreamEvent} {ok : Bool} {o : StreamOracle} {slot : Slot}
      {c : StreamGlobalModelCall} {p : Proceeded}
      (hslot : s.slots[i]? = some slot) (hheld : (event, ok) ∈ slot.held)
      (hcall : slot.call = some c) (hp : proceed d s.server.world c ok event o = .ok p) :
      StepResult d s (.handle i event ok o) { s with
        slots := s.slots.set i (handled slot event ok p) ++ if p.spawned then [listener] else [] }
  | shutDown : StepResult d s .shutDown { s with shutDown := true }

theorem streamStep_result {d : Deployment F} {s s' : StreamServer F} {a : StreamAction F}
    (h : streamStep d s a = some s') : StepResult d s a s' := by
  cases a with
  | serve a =>
    obtain ⟨server, hserver, rfl⟩ := Option.map_eq_some_iff.mp h
    cases a with
    | restart start => exact .restarted hserver
    | _ => exact .served hserver (fun _ heq => by cases heq)
  | arrive i q peer =>
    obtain ⟨slot, hslot, hrest⟩ := Option.bind_eq_some_iff.mp h
    split at hrest
    · rename_i hguard
      simp only [Bool.and_eq_true, Bool.not_eq_true', List.contains_iff_mem] at hguard
      cases hrest
      exact .arrived hslot hguard.1.1 hguard.1.2 hguard.2
    · cases hrest
  | dequeue i event ok =>
    obtain ⟨slot, hslot, hrest⟩ := Option.bind_eq_some_iff.mp h
    split at hrest
    · rename_i hguard
      cases hrest
      exact .dequeued hslot hguard
    · cases hrest
  | handle i event ok o =>
    obtain ⟨slot, hslot, hrest⟩ := Option.bind_eq_some_iff.mp h
    split at hrest
    · rename_i hguard
      simp only [Bool.and_eq_true, List.contains_iff_mem] at hguard
      unfold handle at hrest
      split at hrest
      · rename_i hcall
        cases hrest
        exact .late hslot hguard.2 hcall
      · rename_i c hcall
        split at hrest
        · cases hrest
        · rename_i p hp
          cases hrest
          exact .handled hslot hguard.2 hcall hp
    · cases hrest
  | shutDown =>
    cases h
    exact .shutDown

theorem Sound.step {d : Deployment F} {s s' : StreamServer F} {a : StreamAction F} (h : Sound s)
    (hs : streamStep d s a = some s') : Sound s' := by
  cases streamStep_result hs with
  | served _ _ => exact h
  | restarted _ =>
    intro slot hslot
    obtain rfl := List.mem_singleton.mp hslot
    exact listener_sound false
  | arrived hslot _ _ hrequest =>
    exact forall_mem_set h (arriveAt_sound (h _ (List.mem_of_getElem? hslot)) hrequest _ _)
  | dequeued hslot ha =>
    exact forall_mem_set h (dequeueFrom_sound (h _ (List.mem_of_getElem? hslot)) ha)
  | late hslot _ hcall =>
    exact forall_mem_set h (erased_sound (h _ (List.mem_of_getElem? hslot)) hcall)
  | handled hslot hheld hcall hp =>
    have hnew := (handled_sound (h _ (List.mem_of_getElem? hslot)) hheld hcall hp).2
    intro slot hmem
    rcases List.mem_append.mp hmem with hold | hspawned
    · exact forall_mem_set h hnew slot hold
    · split at hspawned
      · obtain rfl := List.mem_singleton.mp hspawned
        exact listener_sound s.shutDown
      · cases hspawned
  | shutDown =>
    intro slot hslot
    have hold := h slot hslot
    exact ⟨hold.nodup, hold.tracked, fun ok hmem => ⟨(hold.answered ok hmem).1, fun _ => rfl⟩,
      hold.unmatched⟩

/-- The request of a call is handled before the notification that it is done. -/
def requestHandledFirst (s : StreamServer F) : StreamAction F → Bool
  | .handle i .done _ _ =>
    match s.slots[i]? with
    | none => true
    | some slot => !slot.inFlight.contains .request
  | _ => true

/-- No tag was handled after its object was deleted, no operation was started
while one of its kind was in flight, and a listener waits for the next call. -/
structure StreamsSafe (s : StreamServer F) : Prop where
  notLate : s.handledAfterDelete = false
  single : ∀ slot ∈ s.slots, slot.inFlight.Nodup
  listening : s.shutDown = false → ∃ slot ∈ s.slots, Listens slot

theorem handled_buried {slot : Slot} {event : StreamEvent} {ok shutDown : Bool} {p : Proceeded}
    (h : SlotSound shutDown slot) (hheld : (event, ok) ∈ slot.held)
    (hhandles : Handles event ok (slot.rest event ok) p) (hgone : p.call = none)
    (hfirst : event = .done → StreamEvent.request ∉ slot.inFlight) :
    Buried (handled slot event ok p) := by
  cases hhandles with
  | stays _ hcall _ _ _ => cases hcall.symm.trans hgone
  | ended _ hstarted _ hrest _ =>
    obtain ⟨hout, hmap⟩ := List.append_eq_nil_iff.mp hrest
    refine ⟨List.map_eq_nil_iff.mp hmap, ?_⟩
    intro e he
    rw [handled, hstarted, hout] at he
    cases he
  | refused _ hstarted _ hrest hevent hok =>
    subst hevent hok
    have hfalse : slot.matched = false := (h.answered false hheld).1.symm
    have hrequests := (h.unmatched hfalse).2.1
    have hall : ∀ e ∈ slot.rest .request false, e = .done := by
      rw [hrest]
      exact fun e he => List.mem_singleton.mp he
    refine ⟨List.eq_nil_iff_forall_not_mem.mpr ?_, ?_⟩
    · intro x hx
      have hrequest := hrequests x (List.mem_of_mem_erase hx)
      have hdone := hall x.1 (List.mem_append_right _ (List.mem_map_of_mem hx))
      cases hrequest.symm.trans hdone
    · intro e he
      rw [handled, hstarted, List.append_nil] at he
      exact ⟨hall e (List.mem_append_left _ he), hfalse⟩
  | early _ _ _ hrest hevent =>
    refine absurd ((inFlight_perm hheld).mem_iff.mpr ?_) (hfirst hevent)
    rw [hrest]
    exact List.mem_cons_of_mem _ List.mem_cons_self

theorem Secure.step {d : Deployment F} {s s' : StreamServer F} {a : StreamAction F}
    (h : Secure s) (hfirst : requestHandledFirst s a = true) (hs : streamStep d s a = some s') :
    Secure s' := by
  suffices hrest : s'.handledAfterDelete = false ∧
      (∀ slot ∈ s'.slots, slot.call = none → Buried slot) ∧
      (s'.shutDown = false → ∃ slot ∈ s'.slots, Listens slot) from
    ⟨h.sound.step hs, hrest.1, hrest.2.1, hrest.2.2⟩
  cases streamStep_result hs with
  | served _ _ => exact ⟨h.notLate, h.buried, h.listening⟩
  | restarted _ =>
    refine ⟨h.notLate, ?_, fun _ => ⟨listener, List.mem_singleton_self _, listener_listens⟩⟩
    intro slot hslot hgone
    obtain rfl := List.mem_singleton.mp hslot
    cases hgone
  | arrived hslot _ _ hrequest =>
    refine ⟨h.notLate, ?_, ?_⟩
    · apply forall_mem_set h.buried
      intro hgone
      have hburied := h.buried _ (List.mem_of_getElem? hslot) (Option.map_eq_none_iff.mp hgone)
      cases (hburied.outstanding _ hrequest).1
    · intro hopen
      apply exists_mem_set hslot (h.listening hopen)
      rintro ⟨hcall, hmem⟩
      exact ⟨by simpa [arriveAt] using hcall, hmem⟩
  | @dequeued i event ok slot hslot ha =>
    refine ⟨h.notLate, ?_, ?_⟩
    · apply forall_mem_set h.buried
      intro hgone
      obtain ⟨hout, -, hdone⟩ := available_iff.mp ha
      have hburied := h.buried _ (List.mem_of_getElem? hslot) hgone
      obtain ⟨hevent, hunmatched⟩ := hburied.outstanding _ hout
      cases (hdone hevent).symm.trans hunmatched
    · intro hopen
      apply exists_mem_set hslot (h.listening hopen)
      rintro ⟨hcall, hmem⟩
      exact ⟨hcall, (dequeueFrom_perm ok (available_iff.mp ha).1).mem_iff.mp hmem⟩
  | late hslot hheld hcall =>
    have hburied := h.buried _ (List.mem_of_getElem? hslot) hcall
    rw [hburied.held] at hheld
    cases hheld
  | @handled i event ok o slot c p hslot hheld hcall hp =>
    have hmem := List.mem_of_getElem? hslot
    have hsound := h.sound slot hmem
    have hhandles := (handled_sound hsound hheld hcall hp).1
    have hnotRequest : event = .done → StreamEvent.request ∉ slot.inFlight := by
      rintro rfl
      simpa [requestHandledFirst, hslot] using hfirst
    refine ⟨h.notLate, ?_, ?_⟩
    · intro x hx hgone
      rcases List.mem_append.mp hx with hold | hspawned
      · refine forall_mem_set h.buried (fun hgone' => ?_) x hold hgone
        exact handled_buried hsound hheld hhandles hgone' hnotRequest
      · split at hspawned
        · obtain rfl := List.mem_singleton.mp hspawned
          cases hgone
        · cases hspawned
    · intro hopen
      by_cases hspawned : p.spawned = true
      · refine ⟨listener, List.mem_append_right _ ?_, listener_listens⟩
        rw [if_pos hspawned]
        exact List.mem_singleton_self _
      -- without a new listener, the object that listens is not the one that is handled
      have hkeep : Listens slot → Listens (handled slot event ok p) := by
        rintro ⟨-, hrequest⟩
        rcases List.mem_cons.mp ((inFlight_perm hheld).mem_iff.mp hrequest) with heq | hrest
        · cases hhandles with
          | stays _ _ _ hspawn _ => exact absurd (hspawn.trans (by rw [← heq]; rfl)) hspawned
          | ended _ _ _ _ hevent => exact absurd heq.symm hevent
          | refused _ _ _ _ hevent hok =>
            subst hevent hok
            cases hopen.symm.trans ((hsound.answered false hheld).2 rfl)
          | early _ _ _ _ hevent => cases heq.trans hevent
        · cases hhandles with
          | stays c' hcall' _ _ _ =>
            refine ⟨by rw [handled, hcall']; rfl, handled_perm.mem_iff.mp ?_⟩
            exact List.mem_append_left _ hrest
          | ended _ _ _ hnil _ =>
            rw [hnil] at hrest
            cases hrest
          | refused _ _ _ hdone _ _ =>
            rw [hdone] at hrest
            cases List.mem_singleton.mp hrest
          | early _ _ _ _ hevent => exact absurd hrequest (hnotRequest hevent)
      obtain ⟨x, hx, hlistens⟩ := exists_mem_set hslot (h.listening hopen) hkeep
      exact ⟨x, List.mem_append_left _ hx, hlistens⟩
  | shutDown => exact ⟨h.notLate, h.buried, fun hopen => by cases hopen⟩

/-- In every run in which no call is done before its request is handled, no tag
comes too late, no operation is started twice, and there is always a listener. -/
theorem streams_safe {d : Deployment F} {start : Start} {s : StreamServer F}
    (h : Reaches (streamStep d) (fun s a => requestHandledFirst s a = true)
      (initialStreams d start) s) : StreamsSafe s := by
  have hsecure : Secure s :=
    h.invariant (initialStreams_secure d start) (fun _ _ _ hI hok hs => hI.step hok hs)
  exact ⟨hsecure.notLate, fun slot hslot => (hsecure.sound slot hslot).nodup, hsecure.listening⟩

/-- No key encapsulation, and an initialisation vector of zeros. -/
def calmStream (now : ℕ) : StreamOracle := ⟨now, none, some (Crypto.Block.read 12 []), id⟩

def baseRequest : ModelRequest := { clientId := "a", tenantId := "t", modelId := "m" }

/-- A stream of a client that is not registered: it is refused, and then done. -/
def refusedStream : List (StreamAction Binary32) :=
  [.arrive 0 baseRequest site, .dequeue 0 .request true, .handle 0 .request true (calmStream 0),
    .dequeue 0 .finish true, .dequeue 0 .done true, .handle 0 .done true (calmStream 0),
    .handle 0 .finish true (calmStream 0)]

/-- The client cancels at once, and the thread with that tag is the faster one. -/
def cancelledStream : List (StreamAction Binary32) :=
  [.arrive 0 baseRequest site, .dequeue 0 .request true, .dequeue 0 .done true,
    .handle 0 .done true (calmStream 0), .handle 0 .request true (calmStream 0)]

def firstStreams : StreamServer Binary32 := initialStreams standardDeployment firstStart

def refusedServer : StreamServer Binary32 :=
  (execTested (streamStep standardDeployment) requestHandledFirst refusedStream firstStreams).get
    (by decide +kernel)

theorem streams_safe_refused : StreamsSafe refusedServer := by
  have hreach : Reaches (streamStep standardDeployment) (fun s a => requestHandledFirst s a = true)
      (initialStreams standardDeployment firstStart) refusedServer :=
    execTested_reaches requestHandledFirst (fun _ _ h => h) refusedStream (Option.some_get _).symm
  exact streams_safe hreach

def cancelledServer : StreamServer Binary32 :=
  (exec (streamStep standardDeployment) cancelledStream firstStreams).get (by decide +kernel)

/-- The request is handled after its object was deleted, and nobody listens any more. -/
theorem cancelled_stream_unsafe :
    Reaches (streamStep standardDeployment) Free firstStreams cancelledServer ∧
    cancelledServer.handledAfterDelete = true ∧ cancelledServer.shutDown = false ∧
    ¬ ∃ slot ∈ cancelledServer.slots, Listens slot := by
  refine ⟨exec_reaches cancelledStream (Option.some_get _).symm, by decide +kernel,
    by decide +kernel, ?_⟩
  have hgone : cancelledServer.slots.map (fun slot => slot.call.isSome) = [false] := by
    decide +kernel
  rintro ⟨slot, hslot, hcall, -⟩
  have hmem : slot.call.isSome ∈ cancelledServer.slots.map (fun slot => slot.call.isSome) :=
    List.mem_map_of_mem hslot
  rw [hgone, hcall] at hmem
  simp at hmem

end PqFl.Streams
