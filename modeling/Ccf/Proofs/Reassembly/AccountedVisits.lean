import Ccf.Proofs.Reassembly.Accounting

/-!
# Every visit is accounted for

One lemma for each thing that a visit can do.  Where an unspoiled packet is gathered, the entry at
hand is intact, and what it owes decides what happens; where none is, nothing that the visit touches
is owed to an unspoiled packet.
-/

namespace Ccf.Reception

open Walk

variable {stream : Stream} {reception : Reception stream}

theorem settles_none {before after : List Waiting}
    (howed : ∀ number, reception.Unspoiled number → ∀ index,
      reception.Owed after index number ↔ reception.Owed before index number) :
    reception.Settles before after none where
  keeps number hnumber _ := howed number hnumber
  gone_owed := nofun
  gone_settled := nofun
  emitted := nofun

/-- An entry that owes a packet nothing makes no difference to it. -/
theorem owed_concat (entries : List Waiting) {entry : Waiting} {number : Nat}
    (hnothing : ¬ reception.Owes entry number) (index : Nat) :
    reception.Owed (entries ++ [entry]) index number ↔ reception.Owed entries index number := by
  rw [owed_append, owed_cons]
  simp [hnothing, owed_nil]

/-- Two entries that hold the same segment and owe a packet the same. -/
theorem owed_concat_congr {entries others : List Waiting} {entry other : Waiting} {number : Nat}
    (hindex : reception.indexOf entry = reception.indexOf other)
    (howes : reception.Owes entry number ↔ reception.Owes other number) {index : Nat}
    (hentries : reception.Owed entries index number ↔ reception.Owed others index number) :
    reception.Owed (entries ++ [entry]) index number ↔
      reception.Owed (others ++ [other]) index number := by
  rw [owed_append, owed_append, owed_cons, owed_cons, hindex, howes, hentries]

/-- Completing a packet settles it and leaves what follows it. -/
theorem owes_parsedTo {entry : Waiting} {content : Gathering} {block number : Nat}
    (hstarts : entry.startsPacket = true)
    (hstart : stream.StartsIn number (reception.indexOf entry))
    (horigin : stream.origin number = stream.cut (reception.indexOf entry) + entry.next)
    (hnext : stream.origin (number + 1) =
      stream.cut (reception.indexOf entry) + (parsedTo entry content block).next)
    (other : Nat) :
    reception.Owes (parsedTo entry content block) other ↔
      other ≠ number ∧ reception.Owes entry other := by
  have hlt := Stream.origin_lt hstart.1 (Nat.lt_add_one number)
  constructor
  · intro howes
    have htail : stream.cut (reception.indexOf entry) ≤ stream.origin other →
        stream.cut (reception.indexOf entry) + (parsedTo entry content block).next ≤
          stream.origin other := howes.tail
    refine ⟨?_, howes.touches, fun hge => ?_, howes.lead, fun hfront hplain => ?_⟩
    · rintro rfl
      have hle := htail hstart.2.1
      omega
    · have hle := htail hge
      omega
    · rw [hstarts] at hplain
      cases hplain
  · rintro ⟨hne, howes⟩
    refine ⟨howes.touches, fun hge => ?_, howes.lead, fun _ hplain => ?_⟩
    · have hle := howes.tail hge
      rw [← horigin] at hle
      have hlater := Stream.lt_of_origin_le hstart.1 hle hne
      have hmono := stream.origin_mono (Nat.succ_le_of_lt hlater)
      rwa [Nat.succ_eq_add_one, hnext] at hmono
    · have hpfi : entry.startsPacket = false := hplain
      rw [hstarts] at hpfi
      cases hpfi

/-- What is gathered from an entry that is not at its end begins with one of its cells. -/
theorem exists_first_cell {entry : Waiting} {content : Gathering}
    (hunparsed : entry.next < entry.size)
    (hcells : content.cells = entry.segment.cells.drop entry.next) :
    ∃ cell rest, content.cells = cell :: rest ∧ cell ∈ entry.segment.cells := by
  have hlength : 0 < content.cells.length := by
    rw [hcells, List.length_drop, Segment.length_cells]
    exact Nat.sub_pos_of_lt hunparsed
  obtain ⟨cell, rest, hcell⟩ := List.exists_cons_of_length_pos hlength
  refine ⟨cell, rest, hcell, List.mem_of_mem_drop (i := entry.next) ?_⟩
  rw [← hcells, hcell]
  exact List.mem_cons_self

theorem Composed.lawful_oldest {packet : OpenPacket} {oldest : Waiting} {others : List Waiting}
    (hpacket : reception.Composed packet) (hentries : packet.entries.reverse = oldest :: others) :
    reception.Lawful oldest := by
  apply hpacket.lawful oldest
  rw [← List.mem_reverse, hentries]
  exact List.mem_cons_self

section Visits

variable {entry : Waiting} (hentry : reception.Lawful entry)
include hentry

/-! ## Without an open packet -/

theorem accounted_letGo (hparsed : entry.size ≤ entry.next) (hlead : entry.lead = 0)
    (next : Nat) :
    reception.Accounted [entry] next [] none [] [.recycled entry.segment] none where
  settles := settles_none fun number hnumber index => by
    refine (owed_concat [] (fun howes => ?_) index).symm
    have hpositive := (hentry.lead_of_owes hparsed hnumber howes).2
    omega
  handed := Or.inl ⟨rfl, rfl⟩
  stays_front := nofun
  opened := nofun
  damaged := by simp [GivesUp]

theorem accounted_owe (hparsed : entry.size ≤ entry.next) (hlead : 0 < entry.lead) (next : Nat) :
    reception.Accounted [entry] next [entry] none [] [] none where
  settles := settles_none fun _ _ _ => Iff.rfl
  handed := Or.inl ⟨rfl, rfl⟩
  stays_front := by
    intro other hother
    rw [List.mem_singleton.1 hother]
    exact ⟨fun number hnumber howes => (hentry.lead_of_owes hparsed hnumber howes).1,
      Or.inl hlead⟩
  opened := nofun
  damaged := by simp [GivesUp]

theorem accounted_await (hstarts : entry.startsPacket = false)
    (hunparsed : entry.next < entry.size) (next : Nat) :
    reception.Accounted [entry] next [entry] none [] [] none where
  settles := settles_none fun _ _ _ => Iff.rfl
  handed := Or.inl ⟨rfl, rfl⟩
  stays_front := by
    intro other hother
    rw [List.mem_singleton.1 hother]
    refine ⟨fun number hnumber howes => ?_, Or.inr hunparsed⟩
    have hintact := hentry.intact_of_touches hnumber howes.touches
    exact (hentry.crosses_of_touches hintact hstarts hnumber.1 howes.touches).1
  opened := nofun
  damaged := by simp [GivesUp]

theorem accounted_parse {content : Gathering} {block : Nat} (answer : Answer)
    (hstarts : entry.startsPacket = true) (hunparsed : entry.next < entry.size)
    (hproper : content.Proper) (hcells : content.cells = entry.segment.cells.drop entry.next)
    (hcomplete : content.completeSize? = some block) (next : Nat) :
    ∃ gone, reception.Accounted [entry] next [] none [parsedTo entry content block]
      [.delivered (handedOut content block) answer] gone := by
  by_cases hintact : reception.intact (reception.indexOf entry)
  · obtain ⟨number, hstart, horigin, hnext, hend, hshows⟩ :=
      parse_spec hentry hintact hproper hstarts hunparsed hcells hcomplete
    have hcut := hentry.cut_succ hintact
    have howes := owes_parsedTo hstarts hstart horigin hnext
    have hinside : stream.origin (number + 1) ≤ stream.cut (reception.indexOf entry + 1) := by
      omega
    -- The packet lies within this segment, so it touches no other.
    have honly {index : Nat} (htouches : stream.Touches index number) :
        index = reception.indexOf entry := by
      have hbounds := htouches.bounds hstart.2.1 hinside
      omega
    have hunspoiled : reception.Unspoiled number :=
      ⟨hstart.1, fun index _ htouches => honly htouches ▸ hintact⟩
    refine ⟨some number, ⟨?_, ?_, ?_, ?_⟩, Or.inr ⟨_, rfl, hunspoiled, hshows⟩, nofun, nofun, ?_⟩
    · intro other _ hne index
      have hdiffer : other ≠ number := fun heq => hne (by rw [heq])
      have hsame := (howes other).trans (and_iff_right hdiffer)
      have hindex : reception.indexOf (parsedTo entry content block) =
          reception.indexOf entry := rfl
      exact owed_concat_congr hindex hsame (Iff.refl (reception.Owed [] index other))
    · rintro other hother index htouches
      cases hother
      refine ⟨honly htouches ▸ hentry.index_lt, entry, List.mem_singleton_self _,
        (honly htouches).symm, hstart.touches, fun _ => Nat.le_of_eq horigin.symm, fun hlt => ?_,
        fun hlt => ?_⟩
      · exact absurd hlt (Nat.not_lt_of_le hstart.2.1)
      · exact absurd hlt (Nat.not_lt_of_le hstart.2.1)
    · rintro other hother index ⟨entry', hentry', -, howes'⟩
      cases hother
      rw [List.mem_singleton.1 hentry'] at howes'
      exact ((howes number).1 howes').1 rfl
    · rintro other hother
      cases hother
      exact Nat.le_trans hinside (stream.cut_le_emittedLength _)
    · simp [GivesUp]
  · have hnothing {other : Nat} (hother : reception.Unspoiled other) :
        ¬ reception.Owes entry other := not_owes_of_damaged hentry hintact hother
    have hnothing' {other : Nat} (hother : reception.Unspoiled other) :
        ¬ reception.Owes (parsedTo entry content block) other := fun howes =>
      hintact (hentry.intact_of_touches hother howes.touches)
    obtain ⟨cell, rest, hcell, hmem⟩ := exists_first_cell hunparsed hcells
    have hforeign := foreign_of_damaged hentry hintact hmem
    refine ⟨none, settles_none fun number hnumber index => ?_,
      Or.inr ⟨_, rfl, hforeign.matches_none (damaged_of_entry hentry hintact) hcell hcomplete⟩,
      nofun, nofun, ?_⟩
    · calc reception.Owed [parsedTo entry content block] index number
          ↔ reception.Owed [] index number := owed_concat [] (hnothing' hnumber) index
        _ ↔ reception.Owed [entry] index number :=
            (owed_concat [] (hnothing hnumber) index).symm
    · simp [GivesUp]

/-- A packet that begins in an entry and is open afterwards. -/
theorem opened_begin {content : Gathering} (hstarts : entry.startsPacket = true)
    (hunparsed : entry.next < entry.size) (hproper : content.Proper)
    (hcells : content.cells = entry.segment.cells.drop entry.next)
    (hopen : content.completeSize? = none) :
    ∃ whole, reception.Opened entry [] content (reception.indexOf entry + 1) whole := by
  obtain ⟨cell, rest, hcell, hmem⟩ := exists_first_cell hunparsed hcells
  by_cases hintact : reception.intact (reception.indexOf entry)
  · obtain ⟨number, hstart, horigin, hcrosses, hrange⟩ :=
      begin_spec hentry hintact hproper hstarts hunparsed hcells hopen
    have hfront {other : Nat} (hother : reception.Unspoiled other)
        (howes : reception.Owes entry other) :
        other = number ∨ stream.origin other < stream.cut (reception.indexOf entry) := by
      rcases Nat.lt_or_ge (stream.origin other) (stream.cut (reception.indexOf entry))
        with hlt | hge
      · exact Or.inr hlt
      · have hle := howes.tail hge
        rw [← horigin] at hle
        have hinside := Nat.lt_trans howes.touches.2 hcrosses.2
        exact Or.inl (Stream.packet_unique (Nat.le_refl _)
          (Stream.origin_lt hother.1 (Nat.lt_add_one other)) hle hinside)
    by_cases hunspoiled : reception.Unspoiled number
    · refine ⟨some number, hstarts, fun other _ hacross => ?_, nofun, fun other hother howes => ?_,
        fun other hwhole => ?_, nofun⟩
      · rw [hacross.unique hcrosses]
      · exact (hfront hother howes).imp_left (congrArg some ·.symm)
      · cases hwhole
        exact ⟨hunspoiled, hstart, horigin, nofun, hcrosses, hrange⟩
    · refine ⟨none, hstarts, fun other hother hacross => ?_, nofun, fun other hother howes => ?_,
        nofun, fun _ => ⟨damaged_of_spoiled hstart.1 hunspoiled, cell, rest, hcell, ?_⟩⟩
      · rw [hacross.unique hcrosses] at hother
        exact absurd hother hunspoiled
      · apply (hfront hother howes).imp_left
        intro heq
        rw [heq] at hother
        exact absurd hother hunspoiled
      · obtain ⟨place, hlow, hhigh, hcarries⟩ := hrange.of_mem (hcell ▸ List.mem_cons_self)
        exact foreign_of_spoiled hcarries hlow (Nat.lt_trans hhigh hcrosses.2) hunspoiled
  · refine ⟨none, hstarts, fun other hother hacross => ?_, nofun, fun other hother howes => ?_,
      nofun, fun _ => ⟨damaged_of_entry hentry hintact, cell, rest, hcell,
        foreign_of_damaged hentry hintact hmem⟩⟩
    · have hcut := stream.cut_mono (Nat.le_succ (reception.indexOf entry))
      have htouches : stream.Touches (reception.indexOf entry) other :=
        ⟨Nat.lt_of_le_of_lt hcut hacross.2, hacross.1⟩
      exact absurd (hentry.intact_of_touches hother htouches) hintact
    · exact absurd howes (not_owes_of_damaged hentry hintact hother)

theorem accounted_begin {content : Gathering} (hstarts : entry.startsPacket = true)
    (hunparsed : entry.next < entry.size) (hproper : content.Proper)
    (hcells : content.cells = entry.segment.cells.drop entry.next)
    (hopen : content.completeSize? = none) :
    reception.Accounted [entry] (reception.indexOf entry + 1) []
      (some { entries := [entry], content := content }) [] [] none where
  settles := settles_none fun _ _ _ => Iff.rfl
  handed := Or.inl ⟨rfl, rfl⟩
  stays_front := nofun
  opened := by
    intro packet hpacket
    cases hpacket
    obtain ⟨whole, hopened⟩ := opened_begin hentry hstarts hunparsed hproper hcells hopen
    exact ⟨entry, [], whole, rfl, hopened⟩
  damaged := by simp [GivesUp]

/-- An entry whose packet start is past its content is not intact. -/
theorem not_intact_of_past (hstarts : entry.startsPacket = true)
    (hpast : entry.size ≤ entry.firstStart) :
    ¬ reception.intact (reception.indexOf entry) := by
  intro hintact
  have hlt := hentry.firstStart_lt hintact hstarts
  omega

theorem accounted_reject_none (hstarts : entry.startsPacket = true)
    (hpast : entry.size ≤ entry.firstStart) (next : Nat) :
    reception.Accounted [entry] next [] none [] [.dropped entry.segment] none where
  settles := settles_none fun number hnumber index => by
    have hdamaged := not_intact_of_past hentry hstarts hpast
    exact (owed_concat [] (not_owes_of_damaged hentry hdamaged hnumber) index).symm
  handed := Or.inl ⟨rfl, rfl⟩
  stays_front := nofun
  opened := nofun
  damaged _ := damaged_of_entry hentry (not_intact_of_past hentry hstarts hpast)

/-! ## With an open packet -/

variable {packet : OpenPacket} {oldest : Waiting} {others : List Waiting} {whole : Option Nat}
  (hpacket : reception.Composed packet) (hentries : packet.entries.reverse = oldest :: others)
  (hopened : reception.Opened oldest others packet.content (reception.indexOf entry) whole)
include hpacket hentries hopened

omit hentry hopened in
/-- A visit that closes the packet leaves what closing it leaves. -/
theorem accounted_closed (how : Release) {next : Nat} {back : List Waiting}
    {reports : List ReassemblerReport} {gone : Option Nat}
    (hsettles : reception.Settles (openEntries (some packet) ++ [entry])
      ((closing how (some packet)).1 ++ openEntries none ++ back) gone)
    (hhanded : deliveredTables reports = [] ∧ gone = none ∨
      ∃ table, deliveredTables reports = [table] ∧ reception.Matches gone table)
    (hdamaged : GivesUp reports → reception.Damaged) :
    reception.Accounted (openEntries (some packet) ++ [entry]) next
      (closing how (some packet)).1 none back reports gone where
  settles := hsettles
  handed := hhanded
  stays_front := front_of_closing how hentries hpacket
  opened := nofun
  damaged := hdamaged

/-- Closing a gathered packet that the entry at hand completes settles it. -/
theorem settles_whole {number : Nat} (hwhole : whole = some number)
    (hindices : (oldest :: others ++ [entry]).map reception.indexOf =
      List.range' (reception.indexOf oldest) (others.length + 2))
    (howes : reception.Owes entry number)
    (hend : stream.origin (number + 1) ≤ stream.cut (reception.indexOf entry + 1))
    {back : Waiting} (hback : ¬ reception.Owes back number)
    (hothers : ∀ other, reception.Unspoiled other → whole ≠ some other → ∀ index,
      reception.Owed ((closing .recycle (some packet)).1 ++ openEntries none ++ [back]) index
          other ↔
        reception.Owed (openEntries (some packet) ++ [entry]) index other) :
    reception.Settles (openEntries (some packet) ++ [entry])
      ((closing .recycle (some packet)).1 ++ openEntries none ++ [back]) (some number) := by
  have hgathers := hopened.gathers number hwhole
  refine ⟨fun other hother hne index => ?_, ?_, ?_, ?_⟩
  · exact hothers other hother (by rwa [hwhole]) index
  · rintro other hother index htouches
    cases hother
    have hlawful : ∀ other ∈ oldest :: others, reception.Lawful other := fun other hother =>
      hpacket.lawful other (List.mem_reverse.1 (hentries ▸ hother))
    rw [openEntries, hentries]
    exact hgathers.owed hentry howes hindices hlawful hend htouches
  · rintro other hother index howed
    cases hother
    rw [owed_concat _ hback, openEntries, List.append_nil] at howed
    exact ((owed_closing .recycle hentries (hpacket.lawful_oldest hentries) hopened
      hgathers.unspoiled index).1 howed).1 hwhole
  · rintro other hother
    cases hother
    exact Nat.le_trans hend (stream.cut_le_emittedLength _)

theorem accounted_reject (hstarts : entry.startsPacket = true)
    (hpast : entry.size ≤ entry.firstStart) (next : Nat) :
    reception.Accounted (openEntries (some packet) ++ [entry]) next
      (closing .drop (some packet)).1 none []
      ((closing .drop (some packet)).2 ++ [.dropped entry.segment]) none := by
  have hdamaged := not_intact_of_past hentry hstarts hpast
  have hnone (number : Nat) : whole ≠ some number := fun hwhole =>
    hdamaged ((hopened.gathers number hwhole).intact hentry)
  refine accounted_closed hpacket hentries .drop (settles_none fun number hnumber index => ?_)
    (Or.inl ⟨by simp, rfl⟩) (fun _ => damaged_of_entry hentry hdamaged)
  have hclosing := owed_closing .drop hentries (hpacket.lawful_oldest hentries) hopened hnumber
    index
  rw [owed_concat _ (not_owes_of_damaged hentry hdamaged hnumber), openEntries, List.append_nil,
    List.append_nil, hclosing, and_iff_right (hnone number)]

omit hentry hpacket hentries in
/-- Settling the lead bytes makes no difference to packets that do not reach in. -/
theorem owes_settled {number : Nat} (hnumber : reception.Unspoiled number)
    (hwhole : whole ≠ some number) :
    reception.Owes { entry with lead := 0 } number ↔ reception.Owes entry number := by
  have hclear (htouches : stream.Touches (reception.indexOf entry) number) :
      ¬ stream.origin number < stream.cut (reception.indexOf entry) := fun hlt =>
    hwhole (hopened.across number hnumber ⟨hlt, htouches.1⟩)
  constructor
  · intro howes
    exact ⟨howes.touches, howes.tail, fun hlt _ => absurd hlt (hclear howes.touches),
      howes.middle⟩
  · intro howes
    exact ⟨howes.touches, howes.tail, fun hlt _ => absurd hlt (hclear howes.touches),
      howes.middle⟩

omit hentry in
/-- What is owed after the packet has been closed and the lead bytes have been settled. -/
theorem owed_ended (how : Release) (number : Nat) (hnumber : reception.Unspoiled number)
    (hwhole : whole ≠ some number) (index : Nat) :
    reception.Owed ((closing how (some packet)).1 ++ [] ++ [{ entry with lead := 0 }]) index
        number ↔
      reception.Owed (openEntries (some packet) ++ [entry]) index number := by
  have hclosing := owed_closing how hentries (hpacket.lawful_oldest hentries) hopened hnumber
    index
  have hsettled := owes_settled hopened hnumber hwhole
  have hindex : reception.indexOf { entry with lead := 0 } = reception.indexOf entry := rfl
  rw [List.append_nil]
  exact owed_concat_congr hindex hsettled (hclosing.trans (and_iff_right hwhole))

theorem accounted_finish {content : Gathering} {block : Nat} (answer : Answer)
    (hindices : (oldest :: others ++ [entry]).map reception.indexOf =
      List.range' (reception.indexOf oldest) (others.length + 2))
    (howes : ∀ number, whole = some number → reception.Owes entry number)
    (hstarts : entry.startsPacket = true) (hproper : content.Proper)
    (hcells : content.cells = packet.content.cells ++ entry.segment.cells.take entry.lead)
    (hcomplete : content.completeSize? = some block) (next : Nat) :
    ∃ gone, reception.Accounted (openEntries (some packet) ++ [entry]) next
      (closing .recycle (some packet)).1 none [{ entry with lead := 0 }]
      (.delivered (handedOut content block) answer :: (closing .recycle (some packet)).2) gone := by
  have hended := owed_ended hpacket hentries hopened .recycle
  cases hcase : whole with
  | some number =>
    have hgathers := hopened.gathers number hcase
    have howes' := howes number hcase
    obtain ⟨original, -, hsize, hshows, hend⟩ :=
      hgathers.finish_spec hentry hproper hstarts howes' hcells
    rw [hcomplete, Option.some.injEq] at hsize
    subst hsize
    have hback : ¬ reception.Owes { entry with lead := 0 } number := fun hsettled =>
      absurd (hsettled.lead hgathers.crosses.1 hstarts) (Nat.lt_irrefl 0)
    exact ⟨some number, accounted_closed hpacket hentries .recycle
      (settles_whole hentry hpacket hentries hopened hcase hindices howes' (Nat.le_of_lt hend)
        hback hended)
      (Or.inr ⟨_, by simp, hgathers.unspoiled, hshows⟩)
      (fun hgives => absurd hgives (not_givesUp_delivered _ answer (some packet)))⟩
  | none =>
    obtain ⟨hdamaged, cell, rest, hcell, hforeign⟩ := hopened.foreign hcase
    have hfirst : content.cells = cell :: (rest ++ entry.segment.cells.take entry.lead) := by
      rw [hcells, hcell, List.cons_append]
    exact ⟨none, accounted_closed hpacket hentries .recycle
      (settles_none fun number hnumber => hended number hnumber (by simp [hcase]))
      (Or.inr ⟨_, by simp, hforeign.matches_none hdamaged hfirst hcomplete⟩)
      (fun _ => hdamaged)⟩

theorem accounted_abandon {content : Gathering}
    (howes : ∀ number, whole = some number → reception.Owes entry number)
    (hstarts : entry.startsPacket = true) (hproper : content.Proper)
    (hcells : content.cells = packet.content.cells ++ entry.segment.cells.take entry.lead)
    (hopen : content.completeSize? = none) (next : Nat) :
    reception.Accounted (openEntries (some packet) ++ [entry]) next
      (closing .drop (some packet)).1 none [{ entry with lead := 0 }]
      (closing .drop (some packet)).2 none := by
  have hended := owed_ended hpacket hentries hopened .drop
  cases hcase : whole with
  | some number =>
    obtain ⟨original, -, hsize, -, -⟩ := (hopened.gathers number hcase).finish_spec hentry hproper
      hstarts (howes number hcase) hcells
    rw [hopen] at hsize
    cases hsize
  | none =>
    obtain ⟨hdamaged, -⟩ := hopened.foreign hcase
    exact accounted_closed hpacket hentries .drop
      (settles_none fun number hnumber => hended number hnumber (by simp [hcase]))
      (Or.inl ⟨by simp, rfl⟩) (fun _ => hdamaged)

omit hpacket hentries in
/-- An entry without a packet start owes nothing to packets that are not gathered. -/
theorem whole_of_owes (hstarts : entry.startsPacket = false) {number : Nat}
    (hnumber : reception.Unspoiled number)
    (htouches : stream.Touches (reception.indexOf entry) number) : whole = some number := by
  have hintact := hentry.intact_of_touches hnumber htouches
  exact hopened.across number hnumber
    (hentry.crosses_of_touches hintact hstarts hnumber.1 htouches)

theorem accounted_complete {content : Gathering} {block : Nat} (answer : Answer)
    (hindices : (oldest :: others ++ [entry]).map reception.indexOf =
      List.range' (reception.indexOf oldest) (others.length + 2))
    (howes : ∀ number, whole = some number → reception.Owes entry number)
    (hstarts : entry.startsPacket = false) (hproper : content.Proper)
    (hcells : content.cells = packet.content.cells ++ entry.segment.cells.drop entry.next)
    (hcomplete : content.completeSize? = some block)
    (hparsed : entry.size ≤ (parsedTo entry content block).next) (next : Nat) :
    ∃ gone, reception.Accounted (openEntries (some packet) ++ [entry]) next
      (closing .recycle (some packet)).1 none [parsedTo entry content block]
      (.delivered (handedOut content block) answer :: (closing .recycle (some packet)).2) gone := by
  have hentry_owes {number : Nat} (hnumber : reception.Unspoiled number)
      (hwhole : whole ≠ some number) : ¬ reception.Owes entry number := fun howes' =>
    hwhole (whole_of_owes hentry hopened hstarts hnumber howes'.touches)
  have hparsed_owes {number : Nat} (hnumber : reception.Unspoiled number)
      (hwhole : whole ≠ some number) : ¬ reception.Owes (parsedTo entry content block) number :=
    fun howes' => hwhole (whole_of_owes hentry hopened hstarts hnumber howes'.touches)
  have hothers (number : Nat) (hnumber : reception.Unspoiled number)
      (hwhole : whole ≠ some number) (index : Nat) :
      reception.Owed ((closing .recycle (some packet)).1 ++ openEntries none ++
          [parsedTo entry content block]) index number ↔
        reception.Owed (openEntries (some packet) ++ [entry]) index number := by
    rw [owed_concat _ (hparsed_owes hnumber hwhole), owed_concat _ (hentry_owes hnumber hwhole),
      openEntries, List.append_nil, owed_closing .recycle hentries
      (hpacket.lawful_oldest hentries) hopened hnumber, and_iff_right hwhole]
  cases hcase : whole with
  | some number =>
    have hgathers := hopened.gathers number hcase
    have howes' := howes number hcase
    obtain ⟨original, horiginal, hcovers, hrange, hsize⟩ :=
      hgathers.continue_spec hentry hproper hstarts howes' hcells
    rw [hcomplete] at hsize
    split at hsize
    · rename_i hreach
      cases hsize
      have hback : ¬ reception.Owes (parsedTo entry content original.size) number := by
        intro hsettled
        have hzero : (parsedTo entry content original.size).next = 0 :=
          hsettled.middle hgathers.crosses.1 hstarts
        have hpositive := hentry.size_pos (hgathers.intact hentry)
        omega
      exact ⟨some number, accounted_closed hpacket hentries .recycle
        (settles_whole hentry hpacket hentries hopened hcase hindices howes' hreach hback hothers)
        (Or.inr ⟨handedOut content original.size, by simp, hgathers.unspoiled,
          shows_truncate hproper horiginal hreach hrange⟩)
        (fun hgives => absurd hgives (not_givesUp_delivered _ answer (some packet)))⟩
    · cases hsize
  | none =>
    obtain ⟨hdamaged, cell, rest, hcell, hforeign⟩ := hopened.foreign hcase
    have hfirst : content.cells = cell :: (rest ++ entry.segment.cells.drop entry.next) := by
      rw [hcells, hcell, List.cons_append]
    exact ⟨none, accounted_closed hpacket hentries .recycle
      (settles_none fun number hnumber => hothers number hnumber (by simp [hcase]))
      (Or.inr ⟨_, by simp, hforeign.matches_none hdamaged hfirst hcomplete⟩)
      (fun _ => hdamaged)⟩

theorem accounted_overrun {content : Gathering} {block : Nat} (answer : Answer)
    (howes : ∀ number, whole = some number → reception.Owes entry number)
    (hstarts : entry.startsPacket = false) (hproper : content.Proper)
    (hcells : content.cells = packet.content.cells ++ entry.segment.cells.drop entry.next)
    (hcomplete : content.completeSize? = some block)
    (hunparsed : (parsedTo entry content block).next < entry.size) (next : Nat) :
    reception.Accounted (openEntries (some packet) ++ [entry]) next
      (closing .recycle (some packet)).1 none []
      (.delivered (handedOut content block) answer :: (closing .recycle (some packet)).2 ++
        [.dropped entry.segment]) none := by
  cases hcase : whole with
  | some number =>
    exfalso
    have hgathers := hopened.gathers number hcase
    obtain ⟨original, horiginal, hcovers, hrange, hsize⟩ :=
      hgathers.continue_spec hentry hproper hstarts (howes number hcase) hcells
    rw [hcomplete] at hsize
    split at hsize
    · cases hsize
      have hlength := hrange.length_eq
      rw [Gathering.length_cells] at hlength
      have hnext := Stream.origin_succ horiginal
      simp only [parsedTo] at hunparsed
      omega
    · cases hsize
  | none =>
    obtain ⟨hdamaged, cell, rest, hcell, hforeign⟩ := hopened.foreign hcase
    have hfirst : content.cells = cell :: (rest ++ entry.segment.cells.drop entry.next) := by
      rw [hcells, hcell, List.cons_append]
    refine accounted_closed hpacket hentries .recycle
      (settles_none fun number hnumber index => ?_)
      (Or.inr ⟨handedOut content block, by simp,
        hforeign.matches_none hdamaged hfirst hcomplete⟩) (fun _ => hdamaged)
    have hwhole : whole ≠ some number := by simp [hcase]
    have hnothing : ¬ reception.Owes entry number := fun howes' =>
      hwhole (whole_of_owes hentry hopened hstarts hnumber howes'.touches)
    rw [owed_concat _ hnothing, openEntries, List.append_nil, List.append_nil,
      owed_closing .recycle hentries (hpacket.lawful_oldest hentries) hopened hnumber,
      and_iff_right hwhole]

omit hpacket hentries in
/-- An open packet that has been continued by all of an entry's bytes. -/
theorem opened_continue {content : Gathering}
    (howes : ∀ number, whole = some number → reception.Owes entry number)
    (hstarts : entry.startsPacket = false) (hproper : content.Proper)
    (hcells : content.cells = packet.content.cells ++ entry.segment.cells.drop entry.next)
    (hopen : content.completeSize? = none) :
    reception.Opened oldest (others ++ [entry]) content (reception.indexOf entry + 1) whole := by
  have hindex := hentry.index_lt
  have hlt := Stream.cut_lt hindex (Nat.lt_add_one _)
  refine ⟨hopened.starts, fun number hnumber hacross => ?_,
    fun other hother number hnumber howes' => ?_, hopened.front, fun number hwhole => ?_,
    fun hwhole => ?_⟩
  · have htouches : stream.Touches (reception.indexOf entry) number :=
      ⟨Nat.lt_trans hlt hacross.2, hacross.1⟩
    exact whole_of_owes hentry hopened hstarts hnumber htouches
  · rcases List.mem_append.1 hother with hold | hnew
    · exact hopened.free other hold number hnumber howes'
    · rw [List.mem_singleton.1 hnew] at howes'
      exact whole_of_owes hentry hopened hstarts hnumber howes'.touches
  · have hgathers := hopened.gathers number hwhole
    have howes' := howes number hwhole
    obtain ⟨original, -, -, hrange, hsize⟩ :=
      hgathers.continue_spec hentry hproper hstarts howes' hcells
    rw [hopen] at hsize
    split at hsize
    · cases hsize
    · rename_i hbeyond
      refine ⟨hgathers.unspoiled, hgathers.startsIn, hgathers.origin_eq, ?_,
        ⟨Nat.lt_trans hgathers.crosses.1 hlt, Nat.lt_of_not_le hbeyond⟩, hrange⟩
      intro other hother
      rcases List.mem_append.1 hother with hold | hnew
      · exact hgathers.plain other hold
      · rw [List.mem_singleton.1 hnew]
        exact ⟨hstarts, howes'.middle hgathers.crosses.1 hstarts⟩
  · obtain ⟨hdamaged, cell, rest, hcell, hforeign⟩ := hopened.foreign hwhole
    refine ⟨hdamaged, cell, rest ++ entry.segment.cells.drop entry.next, ?_, hforeign⟩
    rw [hcells, hcell, List.cons_append]

omit hpacket in
theorem accounted_continue {content : Gathering}
    (howes : ∀ number, whole = some number → reception.Owes entry number)
    (hstarts : entry.startsPacket = false) (hproper : content.Proper)
    (hcells : content.cells = packet.content.cells ++ entry.segment.cells.drop entry.next)
    (hopen : content.completeSize? = none) :
    reception.Accounted (openEntries (some packet) ++ [entry]) (reception.indexOf entry + 1) []
      (some { entries := entry :: packet.entries, content := content }) [] [] none where
  settles := settles_none fun number _ index => by
    simp only [openEntries, List.nil_append, List.reverse_cons, List.append_nil]
  handed := Or.inl ⟨rfl, rfl⟩
  stays_front := nofun
  opened := by
    intro later hlater
    cases hlater
    refine ⟨oldest, others ++ [entry], whole, ?_,
      opened_continue hentry hopened howes hstarts hproper hcells hopen⟩
    rw [List.reverse_cons, hentries, List.cons_append]
  damaged := by simp [GivesUp]

end Visits

/-- Every visit of a lawful entry is accounted for, if what the entries of the open packet owe to an
unspoiled packet is also owed by the entry at hand where the packet touches it. -/
theorem visit_accounted {entry : Waiting} {pending later : Option OpenPacket}
    {stays back : List Waiting} {reports : List ReassemblerReport}
    (hentry : reception.Lawful entry)
    (hpending : ∀ packet, pending = some packet → reception.Composed packet)
    (hopened : ∀ packet, pending = some packet →
      reception.OpenedAt packet (reception.indexOf entry))
    (howes : ∀ number, reception.Unspoiled number →
      (∃ other ∈ openEntries pending, reception.Owes other number) →
      stream.Touches (reception.indexOf entry) number → reception.Owes entry number)
    {first : Nat} (hindices : (openEntries pending ++ [entry]).map reception.indexOf =
      List.range' first (openEntries pending ++ [entry]).length)
    (hvisits : Visits entry pending stays later back reports) :
    ∃ gone, reception.Accounted (openEntries pending ++ [entry]) (reception.indexOf entry + 1)
      stays later back reports gone := by
  cases pending with
  | none =>
    cases hvisits with
    | reject hstarts hpast => exact ⟨none, accounted_reject_none hentry hstarts hpast _⟩
    | letGo hparsed hlead => exact ⟨none, accounted_letGo hentry hparsed hlead _⟩
    | owe hparsed hlead => exact ⟨none, accounted_owe hentry hparsed hlead _⟩
    | await hstarts hunparsed => exact ⟨none, accounted_await hentry hstarts hunparsed _⟩
    | parse answer hstarts hunparsed hproper hcells hcomplete =>
      exact accounted_parse hentry answer hstarts hunparsed hproper hcells hcomplete _
    | begin hstarts hunparsed hproper hcells hopen =>
      exact ⟨none, accounted_begin hentry hstarts hunparsed hproper hcells hopen⟩
  | some packet =>
    have hpacket := hpending packet rfl
    obtain ⟨oldest, others, whole, hentries, hopen'⟩ := hopened packet rfl
    have howes' : ∀ number, whole = some number → reception.Owes entry number := by
      intro number hwhole
      have hgathers := hopen'.gathers number hwhole
      refine howes number hgathers.unspoiled ⟨oldest, ?_, hgathers.startsIn.touches, ?_, ?_, ?_⟩
        (hgathers.crosses.touches hentry.index_lt)
      · rw [openEntries, hentries]
        exact List.mem_cons_self
      · exact fun _ => Nat.le_of_eq hgathers.origin_eq.symm
      · exact fun hlt => absurd hlt (Nat.not_lt_of_le hgathers.startsIn.2.1)
      · exact fun hlt => absurd hlt (Nat.not_lt_of_le hgathers.startsIn.2.1)
    have hrange : (oldest :: others ++ [entry]).map reception.indexOf =
        List.range' (reception.indexOf oldest) (others.length + 2) := by
      rw [openEntries, hentries] at hindices
      have hfirst := congrArg List.head? hindices
      simp only [List.cons_append, List.map_cons, List.head?_cons, List.length_cons,
        List.range'_succ, Option.some.injEq] at hfirst
      rw [hindices, hfirst]
      simp
    cases hvisits with
    | reject hstarts hpast =>
      exact ⟨none, accounted_reject hentry hpacket hentries hopen' hstarts hpast _⟩
    | finish answer hstarts hinside hproper hcells hcomplete =>
      exact accounted_finish hentry hpacket hentries hopen' answer hrange howes' hstarts hproper
        hcells hcomplete _
    | abandon hstarts hinside hproper hcells hopen =>
      exact ⟨none, accounted_abandon hentry hpacket hentries hopen' howes' hstarts hproper hcells
        hopen _⟩
    | complete answer hstarts hproper hcells hcomplete hparsed =>
      exact accounted_complete hentry hpacket hentries hopen' answer hrange howes' hstarts hproper
        hcells hcomplete hparsed _
    | overrun answer hstarts hproper hcells hcomplete hunparsed =>
      exact ⟨none, accounted_overrun hentry hpacket hentries hopen' answer howes' hstarts hproper
        hcells hcomplete hunparsed _⟩
    | «continue» hstarts hproper hcells hopen =>
      exact ⟨none, accounted_continue hentry hentries hopen' howes' hstarts hproper hcells
        hopen⟩

end Ccf.Reception
