import Transportation.Proofs.Instance.Writing
import Transportation.Proofs.Network.Calls
/-!
# The name in an instance file

The name of a network stands in its file behind two slashes, which make a comment of its first line only. Further lines
of the name come before the lines of the network and are read with them. So a network that was built is read back if and
only if it has a vertex and its name is quiet, that is, no further line of it counts (`read_write_iff`).
-/

namespace Transportation

open Text

namespace Text

theorem numberLines_append (ls ls' : List (List UInt8)) (count : Nat) :
    numberLines (ls ++ ls') count = numberLines ls count ++ numberLines ls' (count + ls.length) := by
  induction ls generalizing count with
  | nil => rfl
  | cons l ls ih =>
    rw [List.cons_append, numberLines_cons, numberLines_cons, ih, List.append_assoc, List.length_cons, Nat.add_assoc,
      Nat.add_comm 1]

theorem numberLines_encode_eq_nil_iff (ls : List (List Char)) (count : Nat) :
    numberLines (ls.map encode) count = [] ↔ ∀ l ∈ ls, tokens (uncommented l) = [] := by
  induction ls generalizing count with
  | nil => simp [numberLines]
  | cons l ls ih =>
    have hl : lineOf? (encode l) (count + 1) = none ↔ tokens (uncommented l) = [] := by
      simp only [lineOf?, decode?_encode]
      cases tokens (uncommented l) <;> simp
    rw [List.map_cons, numberLines_cons, List.append_eq_nil_iff, ih, List.forall_mem_cons, ← hl,
      Option.toList_eq_nil_iff]

end Text

namespace Instance

/-! ## What is written before a network -/

/-- The lines of a name after the first. -/
def furtherLines (name : String) : List (List Char) :=
  (name.toList.splitOn '\n').tail

/-- No line of the name after the first counts. -/
def Quiet (name : String) : Prop :=
  ∀ l ∈ furtherLines name, tokens (uncommented l) = []

instance (name : String) : Decidable (Quiet name) :=
  inferInstanceAs (Decidable (∀ l ∈ furtherLines name, tokens (uncommented l) = []))

variable {max : Nat}

theorem splitOn_header (name : String) :
    ∃ l, ("// " ++ name).toList.splitOn '\n' = ('/' :: '/' :: l) :: furtherLines name := by
  have hheader : ("// " ++ name).toList = '/' :: '/' :: ' ' :: name.toList := by
    rw [String.toList_append]
    rfl
  obtain ⟨l, ls, hsplit⟩ := List.exists_cons_of_ne_nil (List.splitOn_ne_nil '\n' name.toList)
  refine ⟨' ' :: l, ?_⟩
  rw [hheader, splitOn_cons_of_ne (by decide), splitOn_cons_of_ne (by decide), splitOn_cons_of_ne (by decide),
    furtherLines, hsplit]
  rfl

/-- What counts in the file of a network are the lines of its name after the first and then its own. -/
theorem contents_write (g : Network (Signed max)) : ∃ k k', contents (encode (write g).toList) =
    numberLines ((furtherLines g.name).map encode) k ++ numberLines ((body g).map fun l => encode l.toList) k' := by
  have hbody : (body g).flatMap (fun l => (l.toList.splitOn '\n').map encode) =
      (body g).map fun l => encode l.toList := by
    rw [List.map_eq_flatMap]
    exact List.flatMap_congr fun l hl => by rw [splitOn_of_not_mem (line_feed_not_mem_body g l hl), List.map_singleton]
  rw [← lines_eq, lines]
  by_cases hname : g.name = ""
  · have hwrite : write g = unlines (body g) := by
      simp [write, body, hname]
    rw [hwrite, splitLines_unlines, hbody, hname]
    exact ⟨0, 0, rfl⟩
  · have hwrite : write g = unlines (("// " ++ g.name) :: body g) := by
      simp [write, body, hname]
    obtain ⟨l, hl⟩ := splitOn_header g.name
    rw [hwrite, splitLines_unlines, List.flatMap_cons, hbody, hl, List.map_cons, List.cons_append, numberLines_cons,
      lineOf?_comment, Option.toList_none, List.nil_append, numberLines_append]
    exact ⟨_, _, rfl⟩

/-! ## What is read -/

section
variable {F : Type} [Numeral F] {ls : List Line} {i : Instance F}

theorem Says.length_eq (h : Says ls i) : ls.length = i.links.length + 2 := by
  cases h with
  | intro _ _ joins => rw [List.length_cons, List.length_cons, joins.length_eq]

/-- A line that counts says at least one weight. -/
theorem Says.weights_pos (h : Says ls i) : 0 < i.weights.length := by
  cases h with
  | intro _ weights _ =>
    obtain ⟨_, w, ws, -, hws⟩ := weights
    rw [← hws.length_eq]
    exact Nat.succ_pos _

end

variable [NeZero max]

/-- What an instance file keeps of a network that was built is all but its name. -/
theorem network_ofNetwork (b : Builder (Signed max)) : (ofNetwork b.network).network = (b.setName "").network := by
  rw [ofNetwork, Network.map_weight_network, Network.realArcs_network, Network.map_link_network]
  rfl

section
variable {b : Builder (Signed max)} (hpos : 0 < b.numVertices) (hlt : b.numVertices < idLimit)
include hpos hlt

theorem says_body_network (count : Nat) :
    Says (numberLines ((body b.network).map fun l => encode l.toList) count) (ofNetwork b.network) := by
  have hname : '\n' ∉ (b.setName "").name.toList := List.not_mem_nil
  have hn := Network.numVertices_network b
  have hwritable : Writable (b.setName "").network :=
    writable_of_wellFormed (Network.wellFormed_network _) (hn.ge.trans_lt' hpos) (hn.trans_lt hlt) hname
  exact says_body hwritable count

theorem says_of_quiet (hquiet : Quiet b.name) :
    Says (contents (encode (write b.network).toList)) (ofNetwork b.network) := by
  obtain ⟨k, k', hcontents⟩ := contents_write b.network
  have hnone : numberLines ((furtherLines b.network.name).map encode) k = [] :=
    (numberLines_encode_eq_nil_iff _ k).2 hquiet
  rw [hcontents, hnone]
  exact says_body_network hpos hlt k'

/-- The network takes up as many lines as a file with as many links has, so none is left for the name. -/
theorem quiet_of_says {i : Instance (Signed max)} (h : Says (contents (encode (write b.network).toList)) i)
    (hlinks : i.links.length = b.numArcs) : Quiet b.name := by
  obtain ⟨k, k', hcontents⟩ := contents_write b.network
  have hbody := (says_body_network hpos hlt k').length_eq
  have hlen := h.length_eq
  have hown : (ofNetwork b.network).links.length = b.numArcs := by
    rw [ofNetwork, List.length_map, Network.length_realArcs_network]
  rw [hcontents, List.length_append, hbody, hown, hlinks] at hlen
  have hnone : numberLines ((furtherLines b.network.name).map encode) k = [] :=
    List.eq_nil_of_length_eq_zero (by omega)
  exact (numberLines_encode_eq_nil_iff _ k).1 hnone

end

/-- A network that was built is read back from what is written of it, with as many vertices and arcs, if and only if it
has a vertex, its name is quiet and there are numbers for its vertices and arcs. It is then what it was but for its
name. -/
theorem read_write_iff (b : Builder (Signed max)) (g : Network (Signed max)) :
    (read (write b.network).toUTF8.data.toList = .ok (.ok g) ∧ g.numVertices = b.numVertices ∧ g.numArcs = b.numArcs) ↔
      0 < b.numVertices ∧ Quiet b.name ∧ b.numVertices + b.numArcs < idLimit ∧ g = (b.setName "").network := by
  have hlt : b.numVertices + b.numArcs < idLimit → b.numVertices < idLimit :=
    Nat.lt_of_le_of_lt (Nat.le_add_right _ _)
  have hread : 0 < b.numVertices → Quiet b.name → b.numVertices + b.numArcs < idLimit →
      read (write b.network).toUTF8.data.toList = .ok (.ok (b.setName "").network) := by
    intro hpos hquiet hfit
    rw [toList_toUTF8, ← network_ofNetwork]
    refine read_of_says (says_of_quiet hpos (hlt hfit) hquiet) (fits_ofNetwork.2 ?_)
    rwa [Network.numVertices_network, Network.length_realArcs_network]
  constructor
  · rintro ⟨hg, hn, hm⟩
    have hfit : b.numVertices + b.numArcs < idLimit := hn ▸ hm ▸ room_of_read hg
    obtain ⟨i, hi, -, rfl⟩ := says_of_read hg
    rw [numVertices_network] at hn
    rw [numArcs_network] at hm
    have hpos : 0 < b.numVertices := hn ▸ hi.weights_pos
    rw [toList_toUTF8] at hi
    have hquiet := quiet_of_says hpos (hlt hfit) hi hm
    rw [hread hpos hquiet hfit] at hg
    exact ⟨hpos, hquiet, hfit, Except.ok.inj (Except.ok.inj hg.symm)⟩
  · rintro ⟨hpos, hquiet, hfit, rfl⟩
    exact ⟨hread hpos hquiet hfit, Network.numVertices_network _, Network.numArcs_network _⟩

/-- The second line of the name is a comment of its own. -/
theorem read_write_of_quiet : Quiet "relay\n// of the north" ∧
    read (write (Builder.relay.setName "relay\n// of the north").network).toUTF8.data.toList =
      .ok (.ok (Builder.relay.setName "").network) := by
  have hquiet : Quiet "relay\n// of the north" := by decide +kernel
  exact ⟨hquiet, ((read_write_iff (Builder.relay.setName "relay\n// of the north") _).2
    ⟨by decide, hquiet, by decide, rfl⟩).1⟩

/-- Without vertices the line of the weights is blank and does not count. The lines of a name after its first are read
as lines of the file, be they out of place or in the place of the network's own. -/
theorem read_write_of_empty_and_unquiet :
    read (F := Signed8) (write (Builder.empty : Builder Signed8).network).toUTF8.data.toList =
        .ok (.error (.format 1 (.endOfFile "vertex weights"))) ∧
      read (F := Signed8) (write (Builder.relay.setName "relay\nof the north").network).toUTF8.data.toList =
        .ok (.error (.format 2 (.invalidNumber "of".toList .invalidDigit))) ∧
      ∃ g : Network Signed8,
        read (write ((Builder.empty : Builder Signed8).setName "nothing\n1").network).toUTF8.data.toList = .ok (.ok g) ∧
        g.numVertices = 1 := by
  have h : read (F := Signed8)
      (write ((Builder.empty : Builder Signed8).setName "nothing\n1").network).toUTF8.data.toList =
      .ok (.ok (Builder.empty.withWeights [Signed8.zero]).network) := by decide +kernel
  exact ⟨by decide +kernel, by decide +kernel, _, h, rfl⟩

end Instance

end Transportation
