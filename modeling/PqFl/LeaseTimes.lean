import PqFl.StateStore
import PqFl.TimestampOrder

/-!
# The time of a lease

A lease ends at the instant which `TimestampAfterSeconds` writes down, and the
store compares that text with the text of the present. Until the end of the
year 9999 these comparisons decide as the clock does.
-/

set_option autoImplicit false

namespace PqFl.LeaseTimes
open PqFl.Timestamps PqFl.StoreRecords PqFl.StateStore

inductive Stamps (instant : ℕ) : String → Prop
  | current : Stamps instant (currentTimestamp instant)
  | afterSeconds {now : ℕ} {seconds : ℤ} (h : now + 1000 * (max 0 seconds).toNat = instant) :
    Stamps instant (timestampAfterSeconds now seconds)

theorem Stamps.eq {instant : ℕ} {text : String} (h : Stamps instant text) :
    text = currentTimestamp instant := by
  cases h with
  | current => rfl
  | afterSeconds h => rw [timestampAfterSeconds, h]

theorem newLease_stamps (job : PersistedTrainingJobRecord) (t m c : String)
    (v defaultTtl : ℤ) (now : ℕ) :
    Stamps (now + 1000 * (max 0 (if job.assignmentTtlSeconds > 0 then job.assignmentTtlSeconds
      else defaultTtl)).toNat) (newLease job t m c v defaultTtl now).expiresAt :=
  .afterSeconds rfl

/-- The comparisons of `ExpireAssignmentsLocked`, of `LeaseTrainingAssignment` and
of the checks of a submission decide whether the deadline is over. -/
structure DecidesExpiry (x : PersistedAssignmentLease) (now : String) (deadline instant : ℕ) :
    Prop where
  expires : hasLapsed now x = true ↔ x.status = .leased ∧ deadline ≤ instant
  lives : ∀ jobId roundIndex, isLiveLease jobId roundIndex now x = true ↔
    (x.jobId = jobId ∧ x.roundIndex = roundIndex ∧ x.status = .leased) ∧ instant < deadline
  isLate : x.expiresAt ≠ "" ∧ x.expiresAt ≤ now ↔ deadline ≤ instant

structure OrderedAsTime (a b : ℕ) (text text' : String) : Prop where
  smaller : text < text' ↔ a < b
  equal : text = text' ↔ a = b
  greater : text' < text ↔ b < a
  expiry : ∀ x : PersistedAssignmentLease, x.expiresAt = text → DecidesExpiry x text' a b

theorem decidesExpiry {x : PersistedAssignmentLease} {a b : ℕ} (ha : a < yearsEnd)
    (hb : b < yearsEnd) (hx : x.expiresAt = currentTimestamp a) :
    DecidesExpiry x (currentTimestamp b) a b := by
  have hnot : x.expiresAt ≠ "" := by
    rw [hx]
    exact currentTimestamp_ne_empty a
  have hle : x.expiresAt ≤ currentTimestamp b ↔ a ≤ b := by
    rw [hx]
    exact currentTimestamp_strictMono.le_iff_le ha hb
  have hlt : currentTimestamp b < x.expiresAt ↔ b < a := by
    rw [hx]
    exact currentTimestamp_strictMono.lt_iff_lt hb ha
  constructor
  · rw [hasLapsed, Bool.and_eq_true, Bool.and_eq_true, beq_iff_eq, bne_iff_ne, decide_eq_true_eq,
      hle]
    exact and_congr_left fun _ => and_iff_left hnot
  · intro jobId roundIndex
    rw [isLiveLease, Bool.and_eq_true, Bool.and_eq_true, Bool.and_eq_true, beq_iff_eq, beq_iff_eq,
      beq_iff_eq, decide_eq_true_eq, hlt, and_assoc (a := x.jobId = jobId)]
  · rw [hle]
    exact and_iff_right hnot

/-- Timestamps order like time until the year has five digits. -/
theorem timestamps_order_as_time {a b : ℕ} {text text' : String} (ha : a < yearsEnd)
    (hb : b < yearsEnd) (htext : Stamps a text) (htext' : Stamps b text') :
    OrderedAsTime a b text text' := by
  rw [htext.eq, htext'.eq]
  constructor
  · exact currentTimestamp_strictMono.lt_iff_lt ha hb
  · exact currentTimestamp_strictMono.eq_iff_eq ha hb
  · exact currentTimestamp_strictMono.lt_iff_lt hb ha
  · intro x hx
    exact decidesExpiry ha hb hx

/-- A lease of one minute until the last millisecond of a leap day. -/
def leapDayLease : PersistedAssignmentLease where
  assignmentId := "lease"
  jobId := "job"
  tenantId := "t"
  modelId := "m"
  datasetId := "d"
  clientId := "a"
  roundIndex := 1
  baseModelVersion := 0
  status := .leased
  issuedAt := currentTimestamp 951868739999
  expiresAt := timestampAfterSeconds 951868739999 60
  updatedAt := currentTimestamp 951868739999
  detail := "Lease issued"

/-- It lives until the millisecond before the first of March and has expired then. -/
theorem timestamps_order_as_time_leapDay :
    isLiveLease "job" 1 (currentTimestamp 951868799998) leapDayLease = true ∧
    hasLapsed (currentTimestamp 951868800000) leapDayLease = true := by
  have hdeadline : Stamps 951868799999 (timestampAfterSeconds 951868739999 60) :=
    .afterSeconds (by decide)
  constructor
  · have hbefore := timestamps_order_as_time (b := 951868799998) (by decide) (by decide)
      hdeadline .current
    exact ((hbefore.expiry leapDayLease rfl).lives "job" 1).mpr ⟨⟨rfl, rfl, rfl⟩, by decide⟩
  · have hafter := timestamps_order_as_time (b := 951868800000) (by decide) (by decide)
      hdeadline .current
    exact (hafter.expiry leapDayLease rfl).expires.mpr ⟨rfl, by decide⟩

end PqFl.LeaseTimes
