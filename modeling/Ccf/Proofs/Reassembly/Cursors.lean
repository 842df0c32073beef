import Ccf.Proofs.Reassembly.Disposal

/-!
# Cursors of entries

How the cursor and the count of lead bytes of an entry lie with respect to the packet start of its
segment, from its arrival on and through every visit.  Nothing is asked of the segment.
-/

namespace Ccf

/-- The cursor is not before the packet start, and what is owed, if anything, is what precedes the
packet start.  Without a packet start, all bytes have been parsed or none. -/
structure Waiting.Coherent (entry : Waiting) : Prop where
  start_le : entry.startsPacket = true → entry.firstStart ≤ entry.next
  lead_eq : entry.lead = 0 ∨ entry.startsPacket = true ∧ entry.lead = entry.firstStart
  next_eq : entry.startsPacket = false → entry.next = 0 ∨ entry.next = entry.size
  next_le : entry.startsPacket = true → entry.firstStart < entry.size → entry.next ≤ entry.size

def Waiting.Fresh (entry : Waiting) : Prop := entry.startsPacket = false → entry.next = 0

/-- Nothing has been taken from a segment that enters the window. -/
theorem Waiting.Fresh.arriving (reassembler : Reassembler) (segment : Segment) (now : Instant) :
    (reassembler.arriving segment now).Fresh := by
  intro hstarts
  simp only [Waiting.startsPacket, Reassembler.arriving] at hstarts
  simp [Reassembler.arriving, hstarts]

namespace Waiting.Coherent

variable {entry : Waiting}

/-- A segment enters the window with coherent cursors. -/
theorem arriving (reassembler : Reassembler) (segment : Segment) (now : Instant) :
    (reassembler.arriving segment now).Coherent where
  start_le hstarts := by
    simp only [Waiting.startsPacket, Reassembler.arriving] at hstarts
    simp [Reassembler.arriving, Waiting.firstStart, hstarts]
  lead_eq := by
    simp only [Reassembler.arriving, Waiting.startsPacket, Waiting.firstStart]
    split
    · rename_i hstarts
      exact Or.inr ⟨hstarts, rfl⟩
    · exact Or.inl rfl
  next_eq hstarts := by
    simp only [Waiting.startsPacket, Reassembler.arriving] at hstarts
    exact Or.inl (by simp [Reassembler.arriving, hstarts])
  next_le hstarts hinside := by
    simp only [Waiting.startsPacket, Reassembler.arriving] at hstarts
    simp only [Waiting.firstStart, Reassembler.arriving] at hinside
    simp only [Reassembler.arriving, hstarts, if_true]
    exact Nat.le_of_lt hinside

theorem startsPacket_of_lead (hentry : entry.Coherent) (hlead : 0 < entry.lead) :
    entry.startsPacket = true := by
  rcases hentry.lead_eq with hzero | ⟨hstarts, -⟩
  · omega
  · exact hstarts

/-- What is owed has not been passed by the cursor. -/
theorem lead_le_next (hentry : entry.Coherent) : entry.lead ≤ entry.next := by
  rcases hentry.lead_eq with hzero | ⟨hstarts, hfirst⟩
  · rw [hzero]
    exact Nat.zero_le _
  · exact hfirst ▸ hentry.start_le hstarts

theorem fresh_of_lead (hentry : entry.Coherent) (hlead : 0 < entry.lead) : entry.Fresh :=
  fun hstarts => absurd (hstarts.symm.trans (hentry.startsPacket_of_lead hlead)) (by decide)

/-- Unparsed bytes of an entry in which no packet starts are all of its bytes. -/
theorem fresh_of_unparsed (hentry : entry.Coherent) (hunparsed : entry.next < entry.size) :
    entry.Fresh := by
  intro hstarts
  have hnext := hentry.next_eq hstarts
  omega

/-- Parsing to the end. -/
theorem parsed (hentry : entry.Coherent)
    (hunparsed : entry.startsPacket = true → entry.next < entry.size) :
    Waiting.Coherent { entry with next := entry.size } where
  start_le hstarts :=
    Nat.le_trans (hentry.start_le hstarts) (Nat.le_of_lt (hunparsed hstarts))
  lead_eq := hentry.lead_eq
  next_eq _ := Or.inr rfl
  next_le _ _ := Nat.le_refl _

/-- Giving up the lead. -/
theorem settled (hentry : entry.Coherent) : Waiting.Coherent { entry with lead := 0 } where
  start_le := hentry.start_le
  lead_eq := Or.inl rfl
  next_eq := hentry.next_eq
  next_le := hentry.next_le

end Waiting.Coherent

namespace Walk

variable {entry : Waiting} {content : Gathering} {block : Nat}

/-- The cursor of a coherent entry is at or past its packet start. -/
theorem toFirstStart_eq (hentry : entry.Coherent) : toFirstStart entry = entry := by
  unfold toFirstStart
  split
  · rename_i hstarts
    rw [Nat.max_eq_left (hentry.start_le hstarts)]
  · rfl

/-- A packet that is completed within an entry moves the cursor by its size. -/
theorem parsedTo_next_of_cells (hunparsed : entry.next < entry.size)
    (hcells : content.cells = entry.segment.cells.drop entry.next)
    (hcomplete : content.completeSize? = some block) :
    (parsedTo entry content block).next = entry.next + block ∧
      entry.next + block ≤ entry.size := by
  have hsize : content.size = entry.size - entry.next := by
    rw [← Gathering.length_cells, hcells, List.length_drop, Segment.length_cells]
    rfl
  exact parsedTo_next hsize hunparsed hcomplete

/-- An entry without unparsed bytes is parsed to its end. -/
theorem parsedTo_eq (hparsed : entry.size ≤ (parsedTo entry content block).next) :
    parsedTo entry content block = { entry with next := entry.size } := by
  have hend : (parsedTo entry content block).next = entry.size :=
    Nat.le_antisymm (Nat.sub_le _ _) hparsed
  rw [← hend]
  rfl

theorem coherent_parsedTo (hentry : entry.Coherent) (hstarts : entry.startsPacket = true)
    (hunparsed : entry.next < entry.size)
    (hcells : content.cells = entry.segment.cells.drop entry.next)
    (hcomplete : content.completeSize? = some block) :
    (parsedTo entry content block).Coherent := by
  obtain ⟨hnext, hend⟩ := parsedTo_next_of_cells hunparsed hcells hcomplete
  refine ⟨fun hstart => ?_, hentry.lead_eq, fun hstart => ?_, fun _ _ => Nat.sub_le _ _⟩
  · exact Nat.le_trans (hentry.start_le hstart) (hnext ▸ Nat.le_add_right _ _)
  · exact absurd (hstarts.symm.trans hstart) (by decide)

/-- What closing a packet leaves. -/
theorem mem_closing {how : Release} {pending : Option OpenPacket} {other : Waiting}
    (hmem : other ∈ (closing how pending).1) :
    ∃ oldest ∈ openEntries pending, 0 < oldest.lead ∧
      other = { oldest with next := oldest.size } := by
  cases pending with
  | none => cases hmem
  | some packet =>
    cases hentries : packet.entries.reverse with
    | nil =>
      rw [closing, hentries, retire] at hmem
      cases hmem
    | cons oldest others =>
      rw [closing_eq how packet hentries] at hmem
      split at hmem
      · rename_i hlead
        refine ⟨oldest, ?_, hlead, List.mem_singleton.1 hmem⟩
        rw [openEntries, hentries]
        exact List.mem_cons_self
      · cases hmem

/-- What a visit can leave of an entry. -/
inductive Leaves (entry : Waiting) (pending : Option OpenPacket) : Waiting → Prop
  /-- An entry of the packet that stays open. -/
  | opened {other : Waiting} (hother : other ∈ openEntries pending) : Leaves entry pending other
  | same : Leaves entry pending entry
  /-- The oldest entry of the packet that is closed. -/
  | closed {oldest : Waiting} (holdest : oldest ∈ openEntries pending)
      (hlead : 0 < oldest.lead) : Leaves entry pending { oldest with next := oldest.size }
  /-- The entry at hand, its lead given up. -/
  | settled : Leaves entry pending { entry with lead := 0 }
  /-- The entry at hand, all of it taken. -/
  | parsed (hstarts : entry.startsPacket = false) :
      Leaves entry pending { entry with next := entry.size }
  /-- The entry at hand, one packet taken. -/
  | advanced {content : Gathering} {block : Nat} (hstarts : entry.startsPacket = true)
      (hunparsed : entry.next < entry.size) (hproper : content.Proper)
      (hcells : content.cells = entry.segment.cells.drop entry.next)
      (hcomplete : content.completeSize? = some block) :
      Leaves entry pending (parsedTo entry content block)

theorem leaves_of_visits {pending later : Option OpenPacket} {stays back : List Waiting}
    {reports : List ReassemblerReport}
    (hvisits : Visits entry pending stays later back reports) :
    ∀ other ∈ stays ++ openEntries later ++ back, Leaves entry pending other := by
  have hclosed (how : Release) (rest : List Waiting)
      (hrest : ∀ other ∈ rest, Leaves entry pending other) :
      ∀ other ∈ (closing how pending).1 ++ openEntries none ++ rest,
        Leaves entry pending other := by
    rw [openEntries, List.append_nil]
    refine List.forall_mem_append.2 ⟨fun other hother => ?_, hrest⟩
    obtain ⟨oldest, holdest, hlead, rfl⟩ := mem_closing hother
    exact .closed holdest hlead
  have hnone : ∀ other ∈ ([] : List Waiting), Leaves entry pending other := List.forall_mem_nil _
  have hone {other : Waiting} (hother : Leaves entry pending other) :
      ∀ other' ∈ [other], Leaves entry pending other' := List.forall_mem_singleton.2 hother
  cases hvisits with
  | reject => exact hclosed .drop [] hnone
  | letGo => exact hnone
  | owe => exact hone .same
  | await => exact hone .same
  | parse answer hstarts hunparsed hproper hcells hcomplete =>
    exact hone (.advanced hstarts hunparsed hproper hcells hcomplete)
  | «begin» => exact hone .same
  | finish => exact hclosed .recycle _ (hone .settled)
  | abandon => exact hclosed .drop _ (hone .settled)
  | complete answer hstarts hproper hcells hcomplete hparsed =>
    rw [parsedTo_eq hparsed]
    exact hclosed .recycle _ (hone (.parsed hstarts))
  | overrun => exact hclosed .recycle [] hnone
  | «continue» =>
    rw [openEntries, List.reverse_cons, List.nil_append, List.append_nil]
    exact List.forall_mem_append.2 ⟨fun other hother => .opened hother, hone .same⟩

section Leaves

variable {pending : Option OpenPacket} {other : Waiting} (hentry : entry.Coherent)
  (hopen : ∀ other ∈ openEntries pending, other.Coherent ∧
    (other.startsPacket = true → other.next < other.size))
  (hleaves : Leaves entry pending other)
include hentry hopen hleaves

/-- Visits keep cursors coherent, when the entries in which a packet was opened had unparsed
bytes. -/
theorem coherent_of_leaves : other.Coherent := by
  cases hleaves with
  | opened hother => exact (hopen other hother).1
  | same => exact hentry
  | closed holdest hlead => exact (hopen _ holdest).1.parsed (hopen _ holdest).2
  | settled => exact hentry.settled
  | parsed hstarts =>
    exact hentry.parsed fun hstarts' => absurd (hstarts.symm.trans hstarts') (by decide)
  | advanced hstarts hunparsed hproper hcells hcomplete =>
    exact coherent_parsedTo hentry hstarts hunparsed hcells hcomplete

/-- Visits move cursors forward only, and what is owed becomes less only. -/
theorem advances_of_leaves : ∃ old ∈ openEntries pending ++ [entry],
    old.arrival = other.arrival ∧ other.lead ≤ old.lead ∧ old.next ≤ other.next := by
  have hhand : entry ∈ openEntries pending ++ [entry] :=
    List.mem_append_right _ (List.mem_singleton_self entry)
  cases hleaves with
  | opened hother => exact ⟨other, List.mem_append_left _ hother, rfl, Nat.le_refl _, Nat.le_refl _⟩
  | same => exact ⟨entry, hhand, rfl, Nat.le_refl _, Nat.le_refl _⟩
  | @closed oldest holdest hlead =>
    have hstarts := (hopen oldest holdest).1.startsPacket_of_lead hlead
    exact ⟨oldest, List.mem_append_left _ holdest, rfl, Nat.le_refl _,
      Nat.le_of_lt ((hopen oldest holdest).2 hstarts)⟩
  | settled => exact ⟨entry, hhand, rfl, Nat.zero_le _, Nat.le_refl _⟩
  | parsed hstarts =>
    refine ⟨entry, hhand, rfl, Nat.le_refl _, ?_⟩
    rcases hentry.next_eq hstarts with hzero | hall
    · rw [hzero]
      exact Nat.zero_le _
    · exact Nat.le_of_eq hall
  | advanced hstarts hunparsed hproper hcells hcomplete =>
    obtain ⟨hnext, -⟩ := parsedTo_next_of_cells hunparsed hcells hcomplete
    exact ⟨entry, hhand, rfl, Nat.le_refl _, hnext ▸ Nat.le_add_right _ _⟩

end Leaves

/-- The entries of a walk from which nothing has been taken: all but the one at hand, and that one
too while a packet is open. -/
structure KeepsFresh (walk : Walk) : Prop where
  others : ∀ entry ∈ walk.kept ++ openEntries walk.pending ++ walk.ahead.tail, entry.Fresh
  ahead : ∀ packet, walk.pending = some packet → ∀ entry ∈ walk.ahead, entry.Fresh

theorem keepsFresh_begin {run : List Waiting} (hrun : ∀ entry ∈ run, entry.Fresh)
    (delivered refused : Nat) : (begin run delivered refused).KeepsFresh where
  others entry hentry := hrun entry (List.mem_of_mem_tail hentry)
  ahead packet hpacket := by cases hpacket

/-- Nothing has been taken from the entries that a visit moves past, and it puts back one at
most. -/
theorem fresh_of_visits {pending later : Option OpenPacket} {stays back : List Waiting}
    {reports : List ReassemblerReport} (hentry : entry.Coherent)
    (hopen : ∀ other ∈ openEntries pending, other.Coherent)
    (hfresh : ∀ other ∈ openEntries pending, other.Fresh)
    (hhand : ∀ packet, pending = some packet → entry.Fresh)
    (hvisits : Visits entry pending stays later back reports) :
    (∀ other ∈ stays ++ openEntries later, other.Fresh) ∧ back.length ≤ 1 := by
  have hclosed (how : Release) : ∀ other ∈ (closing how pending).1 ++ openEntries none,
      other.Fresh := by
    rw [openEntries, List.append_nil]
    intro other hother
    obtain ⟨oldest, holdest, hlead, rfl⟩ := mem_closing hother
    exact fun hstarts => absurd (hstarts.symm.trans
      ((hopen oldest holdest).startsPacket_of_lead hlead)) (by decide)
  have hone (hfresh' : entry.Fresh) : ∀ other ∈ [entry], other.Fresh :=
    List.forall_mem_singleton.2 hfresh'
  cases hvisits with
  | reject => exact ⟨hclosed _, Nat.zero_le _⟩
  | letGo => exact ⟨List.forall_mem_nil _, Nat.zero_le _⟩
  | owe hparsed hlead => exact ⟨hone (hentry.fresh_of_lead hlead), Nat.zero_le _⟩
  | await hstarts hunparsed => exact ⟨hone (hentry.fresh_of_unparsed hunparsed), Nat.zero_le _⟩
  | parse => exact ⟨List.forall_mem_nil _, Nat.le_refl _⟩
  | «begin» hstarts hunparsed =>
    exact ⟨hone (hentry.fresh_of_unparsed hunparsed), Nat.zero_le _⟩
  | finish => exact ⟨hclosed _, Nat.le_refl _⟩
  | abandon => exact ⟨hclosed _, Nat.le_refl _⟩
  | complete => exact ⟨hclosed _, Nat.le_refl _⟩
  | overrun => exact ⟨hclosed _, Nat.zero_le _⟩
  | @«continue» packet content =>
    refine ⟨?_, Nat.zero_le _⟩
    rw [openEntries, List.nil_append, List.reverse_cons]
    exact List.forall_mem_append.2 ⟨hfresh, hone (hhand packet rfl)⟩

/-- While a packet is open after a visit, nothing is put back. -/
theorem back_eq_nil {packet : OpenPacket} {pending : Option OpenPacket}
    {stays back : List Waiting} {reports : List ReassemblerReport}
    (hvisits : Visits entry pending stays (some packet) back reports) : back = [] := by
  cases hvisits <;> rfl

theorem KeepsFresh.makes {walk : Walk} {rest stays back : List Waiting} {outcome : WalkOutcome}
    {later : Option OpenPacket} (hfresh : walk.KeepsFresh) (hahead : walk.ahead = entry :: rest)
    (hcoherent : ∀ other ∈ walk.held, other.Coherent)
    (hmakes : Makes walk entry rest outcome stays later back) : outcome.walk.KeepsFresh := by
  have hentry := hcoherent entry (entry_mem_held hahead)
  have hopen : ∀ other ∈ openEntries walk.pending, other.Coherent := fun other hother =>
    hcoherent other (mem_held hahead other (List.mem_append_left _ hother))
  obtain ⟨hpassed, hback⟩ := fresh_of_visits hentry hopen
    (fun other hother => hfresh.others other
      (List.mem_append_left _ (List.mem_append_right _ hother)))
    (fun packet hpacket => hfresh.ahead packet hpacket entry
      (by rw [hahead]; exact List.mem_cons_self)) hmakes.visits
  have hrest : ∀ other ∈ rest, other.Fresh := fun other hother =>
    hfresh.others other (List.mem_append_right _ (by rwa [hahead]))
  constructor
  · rw [hmakes.kept_eq, hmakes.pending_eq, hmakes.ahead_eq]
    intro other hother
    rcases List.mem_append.1 hother with hheld | htail
    · rcases List.mem_append.1 hheld with hkept | hopened
      · rcases List.mem_append.1 hkept with hnew | hold
        · exact hpassed other (List.mem_append_left _ hnew)
        · exact hfresh.others other (List.mem_append_left _ (List.mem_append_left _ hold))
      · exact hpassed other (List.mem_append_right _ hopened)
    · cases back with
      | nil => exact hrest other (List.mem_of_mem_tail htail)
      | cons again more =>
        cases more with
        | nil => exact hrest other htail
        | cons _ _ => exact absurd hback (by simp)
  · rw [hmakes.pending_eq, hmakes.ahead_eq]
    intro packet hpacket
    have hvisits := hmakes.visits
    rw [hpacket] at hvisits
    rw [back_eq_nil hvisits, List.nil_append]
    exact hrest

end Walk

end Ccf
