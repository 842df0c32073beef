import Ccf.Proofs.Reassembly.AccountedVisits

/-!
# Accounts of a walk

An unspoiled packet is awaited as long as every arrived segment that it touches is in the window and
owes it, and it has not been handed out.  It is settled once it has been handed out, once only, and
no segment owes it any more.  A visit takes a packet from the first condition to the second or
leaves it in either; so does a walk.

At the end of a walk along a run, no packet that lies in the run alone is awaited: what stays in the
window owes lead bytes only, and the packet that is still open goes on after the run.
-/

namespace Ccf

namespace Reception

open Walk

variable {stream : Stream} (reception : Reception stream)

def ArrivedBy (arrivals index : Nat) : Prop :=
  ∃ arrival, 0 < arrival ∧ arrival ≤ arrivals ∧ reception.index arrival = index

/-- Entries whose indices lie within one round of sequence numbers, less one. -/
def Close (base : Nat) (entries : List Waiting) : Prop :=
  ∀ entry ∈ entries, base ≤ reception.indexOf entry ∧
    reception.indexOf entry + 1 < base + sequenceSpace

/-- A packet that has not been handed out and is owed by all arrived segments that it touches. -/
structure Awaited (arrivals : Nat) (entries : List Waiting) (labels : List (Option Nat))
    (number : Nat) : Prop where
  owed : ∀ index, stream.Touches index number → reception.ArrivedBy arrivals index →
    reception.Owed entries index number
  not_mem : some number ∉ labels

/-- A packet that has been handed out once and is owed by no segment. -/
structure Settled (arrivals : Nat) (entries : List Waiting) (labels : List (Option Nat))
    (number : Nat) : Prop where
  emitted : stream.origin (number + 1) ≤ stream.emittedLength
  arrived : ∀ index, stream.Touches index number → reception.ArrivedBy arrivals index
  not_owed : ∀ index, ¬ reception.Owed entries index number
  count_eq : labels.count (some number) = 1

/-- A walk whose entries and reports account for every unspoiled packet.  `aside` are the entries of
the window that are not in the run, `stop` is the index behind the run, and the labels say which
packets the reports hand out. -/
structure Tracks (arrivals base : Nat) (aside : List Waiting) (stop : Nat)
    (labels : List (Option Nat)) (reports : List ReassemblerReport) (walk : Walk) : Prop where
  lawful : ∀ entry ∈ aside ++ walk.held, reception.Lawful entry ∧ entry.arrival ≤ arrivals
  close : reception.Close base (aside ++ walk.held)
  nodup : ((aside ++ walk.held).map reception.indexOf).Nodup
  consecutive : ∃ first, (openEntries walk.pending ++ walk.ahead).map reception.indexOf =
      List.range' first (openEntries walk.pending ++ walk.ahead).length ∧
    first + (openEntries walk.pending ++ walk.ahead).length = stop
  kept : ∀ entry ∈ walk.kept, reception.FrontOnly entry ∧
    (0 < entry.lead ∨ entry.next < entry.size)
  composed : ∀ packet, walk.pending = some packet → reception.Composed packet
  opened : ∀ packet, walk.pending = some packet →
    reception.OpenedAt packet (stop - walk.ahead.length)
  status : ∀ number, reception.Unspoiled number →
    reception.Awaited arrivals (aside ++ walk.held) labels number ∨
      reception.Settled arrivals (aside ++ walk.held) labels number
  handed : List.Forall₂ reception.Matches labels (deliveredTables reports)
  damaged : GivesUp reports → reception.Damaged

variable {reception}

/-- What a list of entries owes, part by part. -/
theorem owed_frame {entries frame part : List Waiting} (hperm : entries.Perm (frame ++ part))
    (index number : Nat) :
    reception.Owed entries index number ↔
      reception.Owed frame index number ∨ reception.Owed part index number :=
  (owed_congr hperm).trans owed_append

theorem Awaited.congr {arrivals number : Nat} {entries others : List Waiting}
    {labels : List (Option Nat)} (hperm : entries.Perm others)
    (hawaited : reception.Awaited arrivals entries labels number) :
    reception.Awaited arrivals others labels number where
  owed index htouches harrived := (owed_congr hperm).1 (hawaited.owed index htouches harrived)
  not_mem := hawaited.not_mem

theorem Settled.congr {arrivals number : Nat} {entries others : List Waiting}
    {labels : List (Option Nat)} (hperm : entries.Perm others)
    (hsettled : reception.Settled arrivals entries labels number) :
    reception.Settled arrivals others labels number where
  emitted := hsettled.emitted
  arrived := hsettled.arrived
  not_owed index howed := hsettled.not_owed index ((owed_congr hperm).2 howed)
  count_eq := hsettled.count_eq

/-- Entries that hold the same segment are the same. -/
theorem eq_of_indexOf {entries : List Waiting} (hnodup : (entries.map reception.indexOf).Nodup)
    {entry other : Waiting} (hentry : entry ∈ entries) (hother : other ∈ entries)
    (hindex : reception.indexOf entry = reception.indexOf other) : entry = other :=
  List.inj_on_of_nodup_map hnodup hentry hother hindex

/-- What a part settles changes the status of the packet that is handed out, and of no other. -/
theorem status_of_settles {arrivals : Nat} {entries entries' frame before after : List Waiting}
    {labels labels' : List (Option Nat)} {gone : Option Nat}
    (hperm : entries.Perm (frame ++ before)) (hperm' : entries'.Perm (frame ++ after))
    (hnodup : (entries.map reception.indexOf).Nodup)
    (harrived : ∀ entry ∈ entries, 0 < entry.arrival ∧ entry.arrival ≤ arrivals)
    (hsettles : reception.Settles before after gone)
    (hlabels : gone = none ∧ labels' = labels ∨ labels' = labels ++ [gone]) {number : Nat}
    (hnumber : reception.Unspoiled number)
    (hstatus : reception.Awaited arrivals entries labels number ∨
      reception.Settled arrivals entries labels number) :
    reception.Awaited arrivals entries' labels' number ∨
      reception.Settled arrivals entries' labels' number := by
  have hframe (index : Nat) : reception.Owed entries index number ↔
      reception.Owed frame index number ∨ reception.Owed before index number :=
    owed_frame hperm index number
  have hframe' (index : Nat) : reception.Owed entries' index number ↔
      reception.Owed frame index number ∨ reception.Owed after index number :=
    owed_frame hperm' index number
  by_cases hgone : gone = some number
  · -- The packet is handed out.  Some segment owed it, so it was awaited.
    have hemitted := hsettles.emitted number hgone
    have hbegin : stream.origin number < stream.emittedLength :=
      Nat.lt_of_lt_of_le (Stream.origin_lt hnumber.1 (Nat.lt_add_one number)) hemitted
    obtain ⟨first, -, hlow, hhigh⟩ := Stream.exists_segment hbegin
    have hstart : stream.Touches first number :=
      Stream.StartsIn.touches ⟨hnumber.1, hlow, hhigh⟩
    have howed := (hframe first).2 (Or.inr (hsettles.gone_owed number hgone first hstart).2)
    have hawaited := hstatus.resolve_right fun hsettled => hsettled.not_owed first howed
    have hmember {index : Nat} (htouches : stream.Touches index number) :
        ∃ entry ∈ before, reception.indexOf entry = index := by
      obtain ⟨-, entry, hentry, hindex, -⟩ := hsettles.gone_owed number hgone index htouches
      exact ⟨entry, hentry, hindex⟩
    refine Or.inr ⟨hemitted, fun index htouches => ?_, fun index howes => ?_, ?_⟩
    · obtain ⟨entry, hentry, hindex⟩ := hmember htouches
      obtain ⟨hpositive, hle⟩ :=
        harrived entry (hperm.mem_iff.2 (List.mem_append_right _ hentry))
      exact ⟨entry.arrival, hpositive, hle, hindex⟩
    · rcases (hframe' index).1 howes with ⟨entry, hentry, hindex, howes'⟩ | hafter
      · obtain ⟨other, hother, hindex'⟩ := hmember (hindex ▸ howes'.touches)
        have hpairs := (hperm.map reception.indexOf).nodup_iff.1 hnodup
        rw [List.map_append] at hpairs
        exact (List.nodup_append'.1 hpairs).2.2 (List.mem_map_of_mem hentry)
          (by rw [hindex, ← hindex']; exact List.mem_map_of_mem hother)
      · exact hsettles.gone_settled number hgone index hafter
    · rcases hlabels with ⟨hnone, -⟩ | rfl
      · rw [hgone] at hnone
        cases hnone
      · rw [List.count_append, List.count_eq_zero.2 hawaited.not_mem, hgone]
        simp
  · have howed (index : Nat) : reception.Owed entries' index number ↔
        reception.Owed entries index number := by
      rw [hframe', hframe, hsettles.keeps number hnumber hgone]
    have hcount : labels'.count (some number) = labels.count (some number) := by
      rcases hlabels with ⟨-, rfl⟩ | rfl
      · rfl
      · rw [List.count_append, List.count_singleton, if_neg (by simpa using hgone), Nat.add_zero]
    rcases hstatus with hawaited | hsettled
    · refine Or.inl ⟨fun index htouches harrival => ?_, ?_⟩
      · exact (howed index).2 (hawaited.owed index htouches harrival)
      · rw [← List.count_eq_zero, hcount, List.count_eq_zero]
        exact hawaited.not_mem
    · refine Or.inr ⟨hsettled.emitted, hsettled.arrived, fun index howes => ?_, ?_⟩
      · exact hsettled.not_owed index ((howed index).1 howes)
      · rw [hcount, hsettled.count_eq]

theorem eq_range'_of_suffix {indices : List Nat} {first count : Nat}
    (hsuffix : indices <:+ List.range' first count) :
    indices = List.range' (first + count - indices.length) indices.length := by
  have hle := hsuffix.length_le
  rw [List.length_range'] at hle
  have hdrop := List.suffix_iff_eq_drop.1 hsuffix
  rw [List.length_range', List.drop_range', Nat.mul_one] at hdrop
  have hstart : first + (count - indices.length) = first + count - indices.length := by omega
  have hcount : count - (count - indices.length) = indices.length := by omega
  rwa [hstart, hcount] at hdrop

theorem map_indexOf (entries : List Waiting) :
    entries.map reception.indexOf = (entries.map Waiting.arrival).map reception.index := by
  rw [List.map_map]
  rfl

/-- What reports hand out goes on the labels. -/
theorem exists_labels {labels : List (Option Nat)} {reports more : List ReassemblerReport}
    {gone : Option Nat}
    (hhanded : List.Forall₂ reception.Matches labels (deliveredTables reports))
    (hmore : deliveredTables more = [] ∧ gone = none ∨
      ∃ table, deliveredTables more = [table] ∧ reception.Matches gone table) :
    ∃ labels', (gone = none ∧ labels' = labels ∨ labels' = labels ++ [gone]) ∧
      labels <+: labels' ∧
      List.Forall₂ reception.Matches labels' (deliveredTables (reports ++ more)) := by
  rw [deliveredTables_append]
  rcases hmore with ⟨htables, hnone⟩ | ⟨table, htables, hmatches⟩
  · refine ⟨labels, Or.inl ⟨hnone, rfl⟩, List.prefix_refl _, ?_⟩
    rwa [htables, List.append_nil]
  · refine ⟨labels ++ [gone], Or.inr rfl, List.prefix_append _ _, ?_⟩
    rw [htables]
    exact List.rel_append hhanded (List.Forall₂.cons hmatches List.Forall₂.nil)

section Visit

variable {arrivals base stop : Nat} {aside : List Waiting} {labels : List (Option Nat)}
  {reports : List ReassemblerReport} {walk : Walk} {entry : Waiting} {rest : List Waiting}
  (htracks : reception.Tracks arrivals base aside stop labels reports walk)
  (hahead : walk.ahead = entry :: rest)
include htracks hahead

/-- The open packet and the entry at hand are a stretch of the run. -/
theorem Tracks.stretch : reception.indexOf entry = stop - walk.ahead.length ∧
    ∃ first, (openEntries walk.pending ++ [entry]).map reception.indexOf =
      List.range' first (openEntries walk.pending ++ [entry]).length := by
  obtain ⟨first, hindices, hstop⟩ := htracks.consecutive
  have hsplit : openEntries walk.pending ++ walk.ahead =
      (openEntries walk.pending ++ [entry]) ++ rest := by
    rw [hahead, List.append_assoc, List.singleton_append]
  have hlength : (openEntries walk.pending ++ walk.ahead).length =
      (openEntries walk.pending ++ [entry]).length + rest.length := by
    rw [hsplit, List.length_append]
  have hstretch : (openEntries walk.pending ++ [entry]).map reception.indexOf =
      List.range' first (openEntries walk.pending ++ [entry]).length := by
    have htake := congrArg (List.take (openEntries walk.pending ++ [entry]).length) hindices
    rwa [hsplit, List.map_append, List.take_left' (List.length_map _), ← hsplit, hlength,
      List.take_range'_of_length_ge (Nat.le_add_right _ _)] at htake
  refine ⟨?_, first, hstretch⟩
  have hlast := congrArg List.getLast? hstretch
  rw [List.map_append, List.map_singleton, List.getLast?_concat, List.length_append,
    List.length_singleton, List.range'_1_concat, List.getLast?_concat,
    Option.some.injEq] at hlast
  rw [List.length_append] at hstop
  omega

/-- What the open packet owes to an unspoiled packet that the entry at hand touches is owed by that
entry as well. -/
theorem Tracks.owes {number : Nat} (hnumber : reception.Unspoiled number)
    (hopen : ∃ other ∈ openEntries walk.pending, reception.Owes other number)
    (htouches : stream.Touches (reception.indexOf entry) number) :
    reception.Owes entry number := by
  obtain ⟨other, hother, howes⟩ := hopen
  have hinside : entry ∈ aside ++ walk.held :=
    List.mem_append_right _ (entry_mem_held hahead)
  obtain ⟨hentry, hle⟩ := htracks.lawful entry hinside
  have hmember : other ∈ aside ++ walk.held :=
    List.mem_append_right _ (mem_held hahead other (List.mem_append_left _ hother))
  have hawaited := (htracks.status number hnumber).resolve_right fun hsettled =>
    hsettled.not_owed _ ⟨other, hmember, rfl, howes⟩
  obtain ⟨same, hsame, heq, howes'⟩ := hawaited.owed (reception.indexOf entry) htouches
    ⟨entry.arrival, hentry.arrives.1, hle, rfl⟩
  rwa [← eq_of_indexOf htracks.nodup hsame hinside heq]

variable {outcome : WalkOutcome} {stays back : List Waiting} {later : Option OpenPacket}
  (hmakes : Makes walk entry rest outcome stays later back)
include hmakes

/-- What is ahead of the walk and in its open packet is an end of the run. -/
theorem Tracks.consecutive_of_makes : ∃ first,
    (openEntries outcome.walk.pending ++ outcome.walk.ahead).map reception.indexOf =
        List.range' first (openEntries outcome.walk.pending ++ outcome.walk.ahead).length ∧
      first + (openEntries outcome.walk.pending ++ outcome.walk.ahead).length = stop := by
  obtain ⟨first, hindices, hstop⟩ := htracks.consecutive
  have hlater := (arrivals_suffix hahead hmakes).map reception.index
  rw [← map_indexOf, ← map_indexOf, hindices] at hlater
  have hrange := eq_range'_of_suffix hlater
  have hle := hlater.length_le
  rw [List.length_range', List.length_map] at hle
  rw [List.length_map] at hrange
  exact ⟨_, hrange, by omega⟩

/-- What the window holds after a visit has arrived before it. -/
theorem Tracks.held_of_makes :
    (∀ other ∈ aside ++ outcome.walk.held, ∃ same ∈ aside ++ walk.held,
        same.arrival = other.arrival) ∧
      ((aside ++ outcome.walk.held).map reception.indexOf).Nodup := by
  have hsubperm : ((aside ++ outcome.walk.held).map Waiting.arrival).Subperm
      ((aside ++ walk.held).map Waiting.arrival) := by
    rw [List.map_append, List.map_append]
    exact (List.subperm_append_left _).2 (arrivals_subperm hahead hmakes)
  constructor
  · intro other hother
    exact List.mem_map.1 (hsubperm.subset (List.mem_map_of_mem hother))
  · obtain ⟨arrived, hperm, hsublist⟩ := hsubperm
    have hnodup := htracks.nodup
    rw [map_indexOf] at hnodup ⊢
    exact (hperm.map _).nodup_iff.1 (hnodup.sublist (hsublist.map _))

end Visit

/-- A visit keeps track of every unspoiled packet, and does not fault. -/
theorem tracks_visit {arrivals base : Nat} {aside : List Waiting} {stop : Nat}
    {labels : List (Option Nat)} {reports : List ReassemblerReport} {walk : Walk}
    (answers : Nat → Answer) {entry : Waiting} {rest : List Waiting}
    (htracks : reception.Tracks arrivals base aside stop labels reports walk)
    (hahead : walk.ahead = entry :: rest) :
    (walk.visit answers entry rest).fault = none ∧
      ∃ labels', labels <+: labels' ∧ reception.Tracks arrivals base aside stop labels'
        (reports ++ (walk.visit answers entry rest).reports)
        (walk.visit answers entry rest).walk := by
  have hentry := (htracks.lawful entry (List.mem_append_right _ (entry_mem_held hahead))).1
  obtain ⟨hindex, first, hstretch⟩ := htracks.stretch hahead
  have hopened : ∀ packet, walk.pending = some packet →
      reception.OpenedAt packet (reception.indexOf entry) := by
    rw [hindex]
    exact htracks.opened
  have hdistinct : (walk.held.map Waiting.arrival).Nodup := by
    have hnodup := htracks.nodup
    rw [map_indexOf, List.map_append] at hnodup
    exact (List.nodup_append'.1 (hnodup.of_map _)).2.1
  have htake := canTake_of_composed hentry htracks.composed (arrival_ne_of_nodup hahead hdistinct)
  obtain ⟨stays, later, back, hmakes⟩ := visit_makes answers rest hentry htake
  obtain ⟨gone, haccounted⟩ := visit_accounted hentry htracks.composed hopened
    (fun _ => htracks.owes hahead) hstretch hmakes.visits
  obtain ⟨labels', hlabels, hinitial, hhanded⟩ := exists_labels htracks.handed haccounted.handed
  obtain ⟨hsame, hnodup⟩ := htracks.held_of_makes hahead hmakes
  refine ⟨hmakes.fault_eq, labels', hinitial, ?_, ?_, hnodup,
    htracks.consecutive_of_makes hahead hmakes, ?_, ?_, ?_, ?_, hhanded, ?_⟩
  · intro other hother
    obtain ⟨same, hmember, heq⟩ := hsame other hother
    refine ⟨?_, heq ▸ (htracks.lawful same hmember).2⟩
    rcases List.mem_append.1 hother with haside | hheld
    · exact (htracks.lawful other (List.mem_append_left _ haside)).1
    · exact lawful_held hahead hmakes
        (fun other hother => (htracks.lawful other (List.mem_append_right _ hother)).1)
        htracks.composed other hheld
  · intro other hother
    obtain ⟨same, hmember, heq⟩ := hsame other hother
    rw [indexOf, ← heq]
    exact htracks.close same hmember
  · rw [hmakes.kept_eq]
    intro other hother
    rcases List.mem_append.1 hother with hnew | hold
    · exact haccounted.stays_front other hnew
    · exact htracks.kept other hold
  · rw [hmakes.pending_eq]
    exact composed_of_visits hentry htracks.composed htake hmakes.visits
  · rw [hmakes.pending_eq, hmakes.ahead_eq]
    intro packet hpacket
    have hvisits := hmakes.visits
    rw [hpacket] at hvisits
    obtain ⟨_, -, hstop⟩ := htracks.consecutive
    have hnext : stop - (back ++ rest).length = reception.indexOf entry + 1 := by
      rw [back_eq_nil hvisits, List.nil_append, hindex, hahead, List.length_cons]
      rw [hahead, List.length_append, List.length_cons] at hstop
      omega
    rw [hnext]
    exact haccounted.opened packet hpacket
  · intro number hnumber
    have hbefore := (held_perm hahead).append_left aside
    have hafter := (held_perm_of_makes hmakes).append_left aside
    rw [← List.append_assoc] at hbefore hafter
    refine status_of_settles hbefore hafter htracks.nodup (fun other hother => ?_)
      haccounted.settles hlabels hnumber (htracks.status number hnumber)
    obtain ⟨hlawful, hle⟩ := htracks.lawful other hother
    exact ⟨hlawful.arrives.1, hle⟩
  · rintro ⟨segment, hsegment⟩
    rcases List.mem_append.1 hsegment with hold | hnew
    · exact htracks.damaged ⟨segment, hold⟩
    · exact haccounted.damaged ⟨segment, hnew⟩

/-- A walk keeps track of every unspoiled packet, and does not fault. -/
theorem tracks_finish {arrivals base : Nat} {aside : List Waiting} {stop : Nat}
    {labels : List (Option Nat)} {reports : List ReassemblerReport} {walk : Walk}
    (answers : Nat → Answer)
    (htracks : reception.Tracks arrivals base aside stop labels reports walk) :
    (walk.finish answers).fault = none ∧ (walk.finish answers).walk.ahead = [] ∧
      ∃ labels', labels <+: labels' ∧ reception.Tracks arrivals base aside stop labels'
        (reports ++ (walk.finish answers).reports) (walk.finish answers).walk := by
  refine finish_faultless (fun reports walk => ∃ labels', labels <+: labels' ∧
    reception.Tracks arrivals base aside stop labels' reports walk) answers ?_ walk reports
    ⟨labels, List.prefix_refl _, htracks⟩
  rintro reports walk entry rest ⟨labels', hinitial, htracks⟩ hahead
  obtain ⟨hfault, labels'', hinitial', htracks'⟩ := tracks_visit answers htracks hahead
  exact ⟨hfault, labels'', hinitial.trans hinitial', htracks'⟩

/-- At the end of a walk, the entries of the open packet owe no packet that ends in the run. -/
theorem not_owed_opened {packet : OpenPacket} {stop number : Nat}
    (hopened : reception.OpenedAt packet stop) (hnumber : reception.Unspoiled number)
    (hemitted : stream.origin (number + 1) ≤ stream.emittedLength)
    (hstop : ∀ index, stream.Touches index number → index < stop)
    {index : Nat} (hstarts : stream.StartsIn number index) :
    ¬ reception.Owed packet.entries.reverse index number := by
  obtain ⟨oldest, others, whole, hentries, hopened⟩ := hopened
  rw [hentries]
  have hwhole : whole ≠ some number := by
    intro hwhole
    have hcrosses := (hopened.gathers number hwhole).crosses
    have hindex : stop < stream.segments.length :=
      Stream.lt_of_cut_lt (Nat.lt_of_lt_of_le hcrosses.2 hemitted)
    exact Nat.lt_irrefl stop (hstop stop (hcrosses.touches hindex))
  intro howed
  rcases owed_cons.1 howed with ⟨rfl, howes⟩ | ⟨entry, hentry, -, howes⟩
  · have hfront := (hopened.front number hnumber howes).resolve_left hwhole
    exact absurd hfront (Nat.not_lt_of_le hstarts.2.1)
  · exact hwhole (hopened.free entry hentry number hnumber howes)

/-- At the end of a walk, no packet is awaited that lies in the run alone. -/
theorem not_awaited_of_ended {arrivals base : Nat} {aside : List Waiting} {stop : Nat}
    {labels : List (Option Nat)} {reports : List ReassemblerReport} {walk : Walk}
    (htracks : reception.Tracks arrivals base aside stop labels reports walk)
    (hended : walk.ahead = []) {number : Nat} (hnumber : reception.Unspoiled number)
    (hemitted : stream.origin (number + 1) ≤ stream.emittedLength)
    (harrived : ∀ index, stream.Touches index number → reception.ArrivedBy arrivals index)
    (hstop : ∀ index, stream.Touches index number → index < stop)
    (haside : ∀ entry ∈ aside, ¬ stream.Touches (reception.indexOf entry) number) :
    ¬ reception.Awaited arrivals (aside ++ walk.held) labels number := by
  intro hawaited
  have hbegin : stream.origin number < stream.emittedLength :=
    Nat.lt_of_lt_of_le (Stream.origin_lt hnumber.1 (Nat.lt_add_one number)) hemitted
  obtain ⟨first, -, hlow, hhigh⟩ := Stream.exists_segment hbegin
  have hstarts : stream.StartsIn number first := ⟨hnumber.1, hlow, hhigh⟩
  have howed := hawaited.owed first hstarts.touches (harrived first hstarts.touches)
  rw [held, hended, List.append_nil, owed_append, owed_append] at howed
  rcases howed with ⟨entry, hentry, -, howes⟩ | ⟨entry, hentry, rfl, howes⟩ | hopen
  · exact haside entry hentry howes.touches
  · have hfront := (htracks.kept entry hentry).1 number hnumber howes
    exact absurd hfront (Nat.not_lt_of_le hlow)
  · cases hpending : walk.pending with
    | none =>
      rw [hpending] at hopen
      exact owed_nil hopen
    | some packet =>
      rw [hpending] at hopen
      have hopened := htracks.opened packet hpending
      rw [hended, List.length_nil, Nat.sub_zero] at hopened
      exact not_owed_opened hopened hnumber hemitted hstop hstarts hopen

end Reception

end Ccf
