import Ccf.Proofs.Reassembly.PacketOrigins
import Ccf.Proofs.Reassembly.Tours

/-!
# Walks of segments as they arrived

Whatever has arrived, the cursors of the entries are coherent wherever a walk begins, and the walk
keeps them so: its open packet is what its entries had not been parsed of, and nothing has been
taken from an entry without a packet start.  A step that is refused bytes leaves such a walk as it
was.
-/

namespace Ccf

def Waiting.IsSteady (entry : Waiting) : Prop := entry.Coherent ∧ entry.Fresh

namespace Walk

structure Steady (walk : Walk) : Prop where
  coherent : ∀ entry ∈ walk.held, entry.Coherent
  fresh : walk.KeepsFresh
  unfinished : ∀ packet, walk.pending = some packet → packet.Unfinished

namespace Steady

theorem begin {run : List Waiting} (hrun : ∀ entry ∈ run, entry.IsSteady)
    (delivered refused : Nat) : (begin run delivered refused).Steady where
  coherent entry hentry := (hrun entry hentry).1
  fresh := keepsFresh_begin (fun entry hentry => (hrun entry hentry).2) _ _
  unfinished packet hpacket := by cases hpacket

variable {walk : Walk} {entry : Waiting} {rest stays back : List Waiting} {outcome : WalkOutcome}
  {later : Option OpenPacket} (hsteady : walk.Steady) (hahead : walk.ahead = entry :: rest)
include hsteady hahead

theorem coherent_at : entry.Coherent := hsteady.coherent entry (entry_mem_held hahead)

theorem coherent_open : ∀ other ∈ openEntries walk.pending, other.Coherent := fun other hother =>
  hsteady.coherent other (mem_held hahead other (List.mem_append_left _ hother))

/-- Nothing has been taken from the entry at hand, if a packet is open and none starts in it. -/
theorem fresh_at : ∀ packet, walk.pending = some packet → entry.Fresh := fun packet hpacket =>
  hsteady.fresh.ahead packet hpacket entry (by rw [hahead]; exact List.mem_cons_self)

/-- A step is refused bytes of the entry at hand, or makes a visit. -/
theorem goes (answers : Nat → Answer) :
    Goes walk entry rest (walk.visit answers entry rest) := by
  have hvisit := visit_cases answers entry rest fun packet hpacket =>
    (hsteady.unfinished packet hpacket).proper
  rwa [toFirstStart_eq (hsteady.coherent_at hahead)] at hvisit

theorem makes (hmakes : Makes walk entry rest outcome stays later back) : outcome.walk.Steady := by
  have hlook : ∀ other ∈ openEntries walk.pending,
      other.Coherent ∧ (other.startsPacket = true → other.next < other.size) := fun other hother =>
    ⟨hsteady.coherent_open hahead other hother,
      next_lt_of_unfinished hsteady.unfinished other hother⟩
  constructor
  · intro other hother
    rcases List.mem_append.1 ((held_perm_of_makes hmakes).subset hother) with hframe | hleft
    · exact hsteady.coherent other
        ((held_perm hahead).mem_iff.2 (List.mem_append_left _ hframe))
    · exact coherent_of_leaves (hsteady.coherent_at hahead) hlook
        (leaves_of_visits hmakes.visits other hleft)
  · exact hsteady.fresh.makes hahead hsteady.coherent hmakes
  · rw [hmakes.pending_eq]
    exact unfinished_of_visits hsteady.unfinished (hsteady.fresh_at hahead) hmakes.visits

end Steady

/-- A steady walk leaves entries as they are between calls, wherever it ends. -/
theorem Steady.finish {walk : Walk} (hsteady : walk.Steady) (answers : Nat → Answer) :
    ∀ entry ∈ (walk.finish answers).walk.held, entry.IsSteady := by
  refine finish_induction (fun _ => Steady)
    (fun _ _ walk => ∀ entry ∈ walk.held, entry.IsSteady) answers ?_ ?_ ?_ walk [] hsteady
  · intro _ walk hsteady hended entry hentry
    refine ⟨hsteady.coherent entry hentry, hsteady.fresh.others entry ?_⟩
    rw [held, hended, List.append_nil] at hentry
    exact List.mem_append_left _ hentry
  · intro _ walk entry rest hsteady hahead fault hfault
    have hstay : ({ walk with ahead := entry :: rest } : Walk) = walk := by rw [← hahead]
    rcases hsteady.goes hahead answers with ⟨_, hrefuses, hstopped⟩ | ⟨_, _, _, hmakes⟩
    · rw [hstopped, stoppedAt, hstay]
      intro other hother
      refine ⟨hsteady.coherent other hother, ?_⟩
      rw [held, hahead] at hother
      rcases List.mem_append.1 hother with hpassed | hunpassed
      · exact hsteady.fresh.others other (List.mem_append_left _ hpassed)
      · rcases List.mem_cons.1 hunpassed with rfl | hrest
        · exact fresh_of_refuses (hsteady.coherent_at hahead) (hsteady.fresh_at hahead) hrefuses
        · exact hsteady.fresh.others other (List.mem_append_right _ (by rwa [hahead]))
    · rw [hmakes.fault_eq] at hfault
      cases hfault
  · intro _ walk entry rest hsteady hahead hfault
    rcases hsteady.goes hahead answers with ⟨_, -, hstopped⟩ | ⟨_, _, _, hmakes⟩
    · rw [hstopped] at hfault
      cases hfault
    · exact hsteady.makes hahead hmakes

end Walk

namespace Tour

variable {tour : Tour} (hrun : ∀ entry ∈ tour.run, entry.IsSteady)
include hrun

theorem steady_first : tour.first.Steady := .begin hrun _ _

theorem isSteady_outcome : ∀ entry ∈ tour.outcome.walk.held, entry.IsSteady :=
  (steady_first hrun).finish tour.answers

/-- What visits keep holds ahead of every step of a tour, and where it ends. -/
theorem steps_keep (invariant : List ReassemblerReport → Walk → Prop)
    (reports : List ReassemblerReport) (hfirst : invariant reports tour.first)
    (hkeeps : ∀ step ∈ tour.steps, ∀ earlier, step.before.Steady → invariant earlier step.before →
      ∀ entry rest stays later back, step.before.ahead = entry :: rest →
        Walk.Makes step.before entry rest step.outcome stays later back →
        invariant (earlier ++ step.outcome.reports) step.outcome.walk) :
    (∀ step ∈ tour.steps, step.before.Steady ∧ ∃ earlier, invariant earlier step.before) ∧
      invariant (reports ++ tour.outcome.reports) tour.outcome.walk := by
  have hstep : ∀ step ∈ tour.steps, ∀ earlier,
      step.before.Steady ∧ invariant earlier step.before →
        step.outcome.walk.Steady ∧
          invariant (earlier ++ step.outcome.reports) step.outcome.walk := by
    intro step hmem earlier hbefore
    obtain ⟨entry, rest, hahead, hvisit⟩ := tour.first.exists_visit_of_mem_trail _ step hmem
    have hgoes := hbefore.1.goes hahead tour.answers
    rw [hvisit] at hgoes
    rcases hgoes with ⟨fault, -, hstopped⟩ | ⟨stays, later, back, hmakes⟩
    · have hsame : step.outcome.walk = step.before := by rw [hstopped, Walk.stoppedAt, ← hahead]
      have hsilent : step.outcome.reports = [] := by rw [hstopped, Walk.stoppedAt]
      rwa [hsame, hsilent, List.append_nil]
    · exact ⟨hbefore.1.makes hahead hmakes,
        hkeeps step hmem earlier hbefore.1 hbefore.2 entry rest stays later back hahead hmakes⟩
  obtain ⟨hbefore, hended⟩ := tour.first.trail_keeps tour.answers
    (fun reports walk => walk.Steady ∧ invariant reports walk) hstep ⟨steady_first hrun, hfirst⟩
  refine ⟨fun step hmem => ?_, hended.2⟩
  obtain ⟨earlier, hsteady, hinvariant⟩ := hbefore step hmem
  exact ⟨hsteady, earlier, hinvariant⟩

end Tour

end Ccf
