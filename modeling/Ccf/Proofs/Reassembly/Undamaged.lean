import Ccf.Proofs.Reassembly.Processing
import Mathlib.Data.List.Count

/-!
# Receptions without damage

If every arrival repeats its segment, the accounts determine what a reassembler has handed out and
what it still holds.  The tables it has handed out are those of the packets all of whose bytes have
arrived, and the segments in its window are the arrived ones with bytes of other packets.
-/

namespace Ccf

/-- An entry that occurs once occurs in one place. -/
theorem getElem?_inj_of_count {α : Type*} [BEq α] [LawfulBEq α] {entries : List α}
    {entry : α}
    (hcount : entries.count entry = 1) {place other : Nat}
    (hplace : entries[place]? = some entry) (hother : entries[other]? = some entry) :
    place = other := by
  have hle {first second : Nat} (hfirst : entries[first]? = some entry)
      (hsecond : entries[second]? = some entry) : second ≤ first := by
    by_contra hlt
    have hsplit : entries.count entry =
        (entries.take second).count entry + (entries.drop second).count entry := by
      rw [← List.count_append, List.take_append_drop]
    have hfront : entry ∈ entries.take second := by
      apply List.mem_of_getElem? (i := first)
      rw [List.getElem?_take, if_pos (Nat.lt_of_not_le hlt), hfirst]
    have hback : entry ∈ entries.drop second := by
      apply List.mem_of_getElem? (i := 0)
      rw [List.getElem?_drop, Nat.add_zero, hsecond]
    have hpositive := List.count_pos_iff.2 hfront
    have hpositive' := List.count_pos_iff.2 hback
    omega
  exact Nat.le_antisymm (hle hother hplace) (hle hplace hother)

namespace Reception

variable {stream : Stream} {reception : Reception stream}

/-- A packet is complete exactly if each of its cells is in a segment that has arrived. -/
theorem complete_iff {arrivals number : Nat} {packet : Packet}
    (hpacket : stream.packets[number]? = some packet) :
    reception.Complete arrivals number ↔ ∀ cell ∈ packet.cells, ∃ index segment,
      reception.ArrivedBy arrivals index ∧ stream.segments[index]? = some segment ∧
      cell ∈ segment.cells := by
  have hnext := Stream.origin_succ hpacket
  have hsize := (stream.mac packet (List.mem_of_getElem? hpacket)).le_size
  simp only [MacHeader.wireSize] at hsize
  constructor
  · intro hcomplete cell hcell
    obtain ⟨rfl, hposition⟩ := Packet.mem_cells.1 hcell
    have hline := Stream.line_getElem? hpacket hposition
    have hemitted := hcomplete.emitted
    have hplace : stream.origin number + cell.position < stream.emittedLength := by omega
    obtain ⟨index, hindex, hlow, hhigh⟩ := Stream.exists_segment hplace
    have hsegment := List.getElem?_eq_getElem hindex
    exact ⟨index, _, hcomplete.arrived index ⟨by omega, by omega⟩, hsegment,
      (Stream.mem_cells_iff hsegment hline).2 ⟨hlow, hhigh⟩⟩
  · intro hall
    have hcovered (place : Nat) (hlow : stream.origin number ≤ place)
        (hhigh : place < stream.origin (number + 1)) :
        ∃ index, reception.ArrivedBy arrivals index ∧ stream.cut index ≤ place ∧
          place < stream.cut (index + 1) := by
      have hinside : place - stream.origin number < packet.size := by omega
      have hline := Stream.line_getElem? hpacket hinside
      obtain ⟨index, segment, harrived, hsegment, hcell⟩ :=
        hall ⟨packet, place - stream.origin number⟩ (Packet.mem_cells.2 ⟨rfl, by simp only; omega⟩)
      have hrange := (Stream.mem_cells_iff hsegment hline).1 hcell
      exact ⟨index, harrived, by omega, by omega⟩
    have hemitted : stream.origin (number + 1) ≤ stream.emittedLength := by
      obtain ⟨index, -, -, hhigh⟩ := hcovered (stream.origin (number + 1) - 1) (by omega)
        (by omega)
      have hlast := stream.cut_le_emittedLength (index + 1)
      omega
    refine ⟨hemitted, fun index htouches => ?_⟩
    obtain ⟨hlow, hhigh⟩ := htouches
    have hindex : index < stream.segments.length := by
      have hlt := Nat.lt_of_lt_of_le hlow hemitted
      exact Stream.lt_of_cut_lt hlt
    have hwidth := stream.cut_lt hindex (Nat.lt_add_one index)
    obtain ⟨other, harrived, hlow', hhigh'⟩ := hcovered
      (max (stream.cut index) (stream.origin number)) (by omega) (by omega)
    have hfirst : stream.cut index < stream.cut (other + 1) := by omega
    have hsecond : stream.cut other < stream.cut (index + 1) := by omega
    have hle := Nat.le_of_lt_succ (Stream.lt_of_cut_lt hfirst)
    have hge := Nat.le_of_lt_succ (Stream.lt_of_cut_lt hsecond)
    exact Nat.le_antisymm hge hle ▸ harrived

namespace Stands

variable {settings : ReassemblerSettings} {arrivals : Nat} {labels : List (Option Nat)}
  {reports : List ReassemblerReport} {reassembler : Reassembler}
  (hstands : reception.Stands settings arrivals labels reports reassembler)
include hstands

/-- A complete packet that is not spoiled has been handed out once. -/
theorem count_of_complete {number : Nat} (hnumber : reception.Unspoiled number)
    (hcomplete : reception.Complete arrivals number) : labels.count (some number) = 1 :=
  ((hstands.status number hnumber).resolve_left
    (hstands.complete number hnumber hcomplete)).count_eq

/-- One table is put together from what has arrived of a complete packet that is not spoiled. -/
theorem exists_table {number : Nat} (hnumber : reception.Unspoiled number)
    (hcomplete : reception.Complete arrivals number) :
    ∃ position table, (deliveredTables reports)[position]? = some table ∧
      Shows reception number table ∧
      ∀ (other : Nat) (table' : PieceTable), (deliveredTables reports)[other]? = some table' →
        reception.CarriesRange (stream.origin number) (stream.origin (number + 1)) table'.cells →
        other = position := by
  have hcount := hstands.count_of_complete hnumber hcomplete
  obtain ⟨hlength, hmatches⟩ := List.forall₂_iff_get.1 hstands.handed
  have hlabel {place : Nat} {table : PieceTable}
      (htable : (deliveredTables reports)[place]? = some table) :
      ∃ label, labels[place]? = some label ∧ reception.Matches label table := by
    obtain ⟨hplace, rfl⟩ := List.getElem?_eq_some_iff.1 htable
    have hplace' : place < labels.length := hlength ▸ hplace
    exact ⟨_, List.getElem?_eq_getElem hplace', hmatches place hplace' hplace⟩
  have hmember : some number ∈ labels := List.count_pos_iff.1 (hcount ▸ Nat.one_pos)
  obtain ⟨position, hposition⟩ := List.mem_iff_getElem?.1 hmember
  have hbound : position < (deliveredTables reports).length :=
    hlength ▸ (List.getElem?_eq_some_iff.1 hposition).1
  have htable := List.getElem?_eq_getElem hbound
  obtain ⟨label, hlabel', hshows⟩ := hlabel htable
  rw [hposition] at hlabel'
  cases hlabel'
  refine ⟨position, _, htable, hshows.2, fun other table' hother hrange => ?_⟩
  obtain ⟨label, hlabel', hmatched⟩ := hlabel hother
  cases label with
  | none => exact absurd hrange (hmatched.2 number hnumber)
  | some number' =>
    rw [← hrange.packet_unique hnumber.1 hmatched.2.range] at hlabel'
    exact getElem?_inj_of_count hcount hlabel' hposition

/-- An unspoiled packet that is not complete is awaited. -/
theorem awaited_of_incomplete {number : Nat} (hnumber : reception.Unspoiled number)
    (hincomplete : ¬ reception.Complete arrivals number) :
    reception.Awaited arrivals reassembler.window labels number :=
  (hstands.status number hnumber).resolve_right fun hsettled =>
    hincomplete ⟨hsettled.emitted, hsettled.arrived⟩

end Stands

theorem unspoiled_of_sound (hsound : ¬ reception.Damaged) {number : Nat}
    (hnumber : number < stream.packets.length) : reception.Unspoiled number := by
  refine ⟨hnumber, fun index hindex _ => ?_⟩
  by_contra hdamaged
  exact hsound ⟨index, hindex, hdamaged⟩

/-- Where nothing is damaged, all that is handed out are packets of the stream. -/
theorem exists_numbers (hsound : ¬ reception.Damaged) {labels : List (Option Nat)}
    {tables : List PieceTable} (hmatches : List.Forall₂ reception.Matches labels tables) :
    ∃ numbers : List Nat, labels = numbers.map some ∧
      List.Forall₂ (fun number table => reception.Unspoiled number ∧ Shows reception number table)
        numbers tables := by
  induction hmatches with
  | nil => exact ⟨[], rfl, List.Forall₂.nil⟩
  | @cons label table labels tables hmatches _ ih =>
    obtain ⟨numbers, rfl, hnumbers⟩ := ih
    cases label with
    | none => exact absurd hmatches.1 hsound
    | some number => exact ⟨number :: numbers, rfl, List.Forall₂.cons hmatches hnumbers⟩

/-- The bytes of tables that show packets. -/
theorem map_bytes_of_shows {numbers : List Nat} {tables : List PieceTable}
    (hshows : List.Forall₂
      (fun number table => reception.Unspoiled number ∧ Shows reception number table)
      numbers tables) :
    tables.map PieceTable.bytes =
      (numbers.filterMap fun number => stream.packets[number]?).map Packet.byteList := by
  induction hshows with
  | nil => rfl
  | cons hshown _ ih =>
    have hpacket := List.getElem?_eq_getElem hshown.1.1
    rw [List.map_cons, hshown.2.bytes_eq hpacket, ih, List.filterMap_cons, hpacket, List.map_cons]

namespace Stands

variable {settings : ReassemblerSettings} {arrivals : Nat} {labels : List (Option Nat)}
  {reports : List ReassemblerReport} {reassembler : Reassembler}
  (hstands : reception.Stands settings arrivals labels reports reassembler)
  (hsound : ¬ reception.Damaged)
include hstands hsound

/-- The tables that have been handed out are those of the complete packets. -/
theorem delivered_perm {complete : Packet → Bool}
    (hcomplete : ∀ number packet, stream.packets[number]? = some packet →
      (complete packet = true ↔ reception.Complete arrivals number)) :
    ((deliveredTables reports).map PieceTable.bytes).Perm
      ((stream.packets.filter complete).map Packet.byteList) := by
  obtain ⟨numbers, rfl, hnumbers⟩ := exists_numbers hsound hstands.handed
  rw [map_bytes_of_shows hnumbers]
  apply List.Perm.map
  have hunspoiled {number : Nat} (hnumber : number ∈ numbers) : reception.Unspoiled number := by
    obtain ⟨place, hplace, rfl⟩ := List.getElem_of_mem hnumber
    exact ((List.forall₂_iff_get.1 hnumbers).2 place hplace
      ((List.forall₂_iff_get.1 hnumbers).1 ▸ hplace)).1
  have hcount (number : Nat) : (numbers.map some).count (some number) = numbers.count number :=
    List.count_map_of_injective _ _ (fun _ _ => Option.some.inj) _
  have hmember {number : Nat} (hnumber : reception.Unspoiled number) :
      number ∈ numbers ↔ reception.Complete arrivals number := by
    constructor
    · intro hmem
      by_contra hincomplete
      exact (hstands.awaited_of_incomplete hnumber hincomplete).not_mem
        (List.mem_map_of_mem hmem)
    · intro hcomplete
      have hone := hstands.count_of_complete hnumber hcomplete
      rw [hcount] at hone
      exact List.count_pos_iff.1 (hone ▸ Nat.one_pos)
  have hnodup : numbers.Nodup := by
    rw [List.nodup_iff_count_le_one]
    intro number
    by_cases hmem : number ∈ numbers
    · have hnumber := hunspoiled hmem
      rw [← hcount, hstands.count_of_complete hnumber ((hmember hnumber).1 hmem)]
    · rw [List.count_eq_zero.2 hmem]
      exact Nat.zero_le _
  have hread : (numbers.filterMap fun number => stream.packets[number]?).Nodup := by
    apply hnodup.filterMap
    intro number other packet hpacket hpacket'
    have hbound := (List.getElem?_eq_some_iff.1 hpacket).1
    exact (List.getElem?_inj hbound stream.nodup).1 (Eq.trans hpacket (Eq.symm hpacket'))
  rw [List.perm_ext_iff_of_nodup hread (stream.nodup.filter _)]
  intro packet
  rw [List.mem_filterMap, List.mem_filter]
  constructor
  · rintro ⟨number, hnumber, hpacket⟩
    exact ⟨List.mem_of_getElem? hpacket,
      (hcomplete number packet hpacket).2 ((hmember (hunspoiled hnumber)).1 hnumber)⟩
  · rintro ⟨hpacket, hall⟩
    obtain ⟨number, hnumber⟩ := List.mem_iff_getElem?.1 hpacket
    have hbound := (List.getElem?_eq_some_iff.1 hnumber).1
    exact ⟨number, (hmember (unspoiled_of_sound hsound hbound)).2
      ((hcomplete number packet hnumber).1 hall), hnumber⟩

/-- An entry of the window has bytes of a packet that is not complete. -/
theorem exists_incomplete {entry : Waiting} (hentry : entry ∈ reassembler.window) :
    ∃ number, number < stream.packets.length ∧
      stream.Touches (reception.index entry.arrival) number ∧
      ¬ reception.Complete arrivals number := by
  obtain ⟨hlawful, -⟩ := hstands.lawful entry hentry
  obtain ⟨number, hnumber, howes⟩ := hlawful.exists_owes
    (intact_of_not_damaged hsound hlawful) (hstands.busy hsound entry hentry)
  have hunspoiled := unspoiled_of_sound hsound hnumber
  refine ⟨number, hnumber, howes.touches, fun hcomplete => ?_⟩
  refine hstands.complete number hunspoiled hcomplete
    ((hstands.status number hunspoiled).resolve_right fun hsettled => ?_)
  exact hsettled.not_owed _ ⟨entry, hentry, rfl, howes⟩

/-- The entries of the window hold the arrived segments with bytes of packets that are not
complete. -/
theorem arrivals_perm
    (hinjective : ∀ arrival other, 0 < arrival → arrival ≤ arrivals → 0 < other →
      other ≤ arrivals → reception.index arrival = reception.index other → arrival = other)
    {needed : Nat → Bool}
    (hneeded : ∀ arrival, 0 < arrival → arrival ≤ arrivals → (needed arrival = true ↔
      ∃ number, number < stream.packets.length ∧
        stream.Touches (reception.index arrival) number ∧
        ¬ reception.Complete arrivals number)) :
    (reassembler.window.map Waiting.arrival).Perm ((List.range' 1 arrivals).filter needed) := by
  have hnodup : (reassembler.window.map Waiting.arrival).Nodup := by
    have hindices := hstands.nodup
    have hcomp : reassembler.window.map reception.indexOf =
        (reassembler.window.map Waiting.arrival).map reception.index := by
      rw [List.map_map]
      rfl
    rw [hcomp] at hindices
    exact List.Nodup.of_map _ hindices
  have hkept : ((List.range' 1 arrivals).filter needed).Nodup :=
    List.Nodup.filter _ List.nodup_range'
  rw [List.perm_ext_iff_of_nodup hnodup hkept]
  intro arrival
  rw [List.mem_map, List.mem_filter, List.mem_range'_1]
  constructor
  · rintro ⟨entry, hentry, rfl⟩
    obtain ⟨hlawful, hle⟩ := hstands.lawful entry hentry
    have hpositive := hlawful.arrives.1
    exact ⟨⟨hpositive, by omega⟩,
      (hneeded _ hpositive hle).2 (hstands.exists_incomplete hsound hentry)⟩
  · rintro ⟨⟨hpositive, hlt⟩, hneed⟩
    obtain ⟨number, hnumber, htouches, hincomplete⟩ :=
      (hneeded arrival hpositive (by omega)).1 hneed
    have hawaited := hstands.awaited_of_incomplete (unspoiled_of_sound hsound hnumber) hincomplete
    obtain ⟨entry, hentry, hindex, -⟩ :=
      hawaited.owed _ htouches ⟨arrival, hpositive, by omega, rfl⟩
    obtain ⟨hlawful, hle⟩ := hstands.lawful entry hentry
    exact ⟨entry, hentry, hinjective _ _ hlawful.arrives.1 hle hpositive (by omega) hindex⟩

end Stands

end Reception

end Ccf
