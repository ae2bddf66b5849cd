import BlockTree.Proofs.Ancestry
import BlockTree.Proofs.BodyCommitment
import BlockTree.Proofs.MachineEncoding
import BlockTree.Proofs.Replay

namespace BlockTree

variable {S T E : Type}

namespace Machine

def hashed (m : Machine S T E) (b : Block T) (post? : Option S) : List Bytes :=
  b.header.encode.toOption.toList ++ Commitment.hashed (b.body.map m.extrinsicValue) ++
    (post?.bind fun s => (m.stateBytes s).toOption).toList

structure Commits (m : Machine S T E) (id : String) (b : Block T) (s : S) : Prop where
  wellFormed : b.header.malformedField? = none
  id_eq : b.header.id = .ok id
  bodyRoot : m.bodyRoot b.body = .ok b.header.extrinsicsRoot
  stateRoot : m.stateRoot s = .ok b.header.stateRoot

variable {m : Machine S T E} {same : S → S → Prop} {mend : T → T}

theorem encode_mem_hashed {b : Block T} {bytes : Bytes} (h : b.header.encode = .ok bytes)
    (post? : Option S) : bytes ∈ m.hashed b post? := by
  rw [hashed, h]
  exact List.mem_append_left _ (List.mem_append_left _ (List.mem_singleton_self _))

theorem body_subset_hashed (b : Block T) (post? : Option S) :
    Commitment.hashed (b.body.map m.extrinsicValue) ⊆ m.hashed b post? :=
  fun _ h => List.mem_append_left _ (List.mem_append_right _ h)

theorem stateBytes_mem_hashed {s : S} {bytes : Bytes} (h : m.stateBytes s = .ok bytes)
    (b : Block T) : bytes ∈ m.hashed b (some s) := by
  rw [hashed, Option.bind_some, h]
  exact List.mem_append_right _ (List.mem_singleton_self _)

theorem Commits.agree (hm : m.Faithful same mend) {id : String} {b b' : Block T} {s s' : S}
    (h : m.Commits id b s) (h' : m.Commits id b' s')
    (hshort : ∀ x ∈ m.hashed b (some s), x.length < Rlp.limit)
    (hfree : CollisionFree (m.hashed b (some s) ++ m.hashed b' (some s'))) :
    b.header = b'.header ∧ b.body.map mend = b'.body.map mend ∧ same s s' := by
  obtain ⟨bytes, hbytes, hid⟩ := Header.id_eq_ok_iff.1 h.id_eq
  obtain ⟨bytes', hbytes', hid'⟩ := Header.id_eq_ok_iff.1 h'.id_eq
  have hmem := encode_mem_hashed (m := m) hbytes (some s)
  obtain rfl : bytes = bytes' := hfree _ (List.mem_append_left _ hmem) _
    (List.mem_append_right _ (encode_mem_hashed hbytes' (some s')))
    (Hex.encode_injective (hid.trans hid'.symm))
  have hheader : b.header = b'.header :=
    Header.eq_of_encode_eq h.wellFormed h'.wellFormed hbytes hbytes' (hshort _ hmem)
  have hbody' := h'.bodyRoot
  rw [← hheader] at hbody'
  have hencode := Commitment.map_encode_eq_of_bodyRoot_eq h.bodyRoot hbody'
    (hfree.restrict (body_subset_hashed b _) (body_subset_hashed b' _))
  obtain ⟨hok, _⟩ := Commitment.exists_leaves_of_bodyRoot h.bodyRoot
  have hbody : b.body.map mend = b'.body.map mend := hm.body_eq hok (hencode ▸ hok) fun x hx =>
    hshort x (body_subset_hashed b _ (Commitment.encodings_subset_hashed _ hx))
  obtain ⟨state, hstate, hroot⟩ := stateRoot_eq_ok_iff.1 h.stateRoot
  obtain ⟨state', hstate', hroot'⟩ := stateRoot_eq_ok_iff.1 h'.stateRoot
  rw [← hheader] at hroot'
  have hsmem := stateBytes_mem_hashed hstate b
  obtain rfl : state = state' := hfree _ (List.mem_append_left _ hsmem) _
    (List.mem_append_right _ (stateBytes_mem_hashed hstate' b'))
    (Hex.encode_injective (hroot.trans hroot'.symm))
  exact ⟨hheader, hbody, hm.same_of_stateBytes_eq hstate hstate' (hshort _ hsmem)⟩

end Machine

namespace Entry

variable {mend : T → T} {e f : Entry T} {es fs : List (Entry T)}

def mapBody (f : T → T) (e : Entry T) : Entry T :=
  { e with block := ⟨e.block.header, e.block.body.map f⟩ }

theorem parent_eq_of_mapBody (h : e.mapBody mend = f.mapBody mend) : e.parent = f.parent := by
  have hparent := congrArg Entry.parent h
  exact hparent

end Entry

namespace Tree

variable {settings settings' : Settings S T E} {t u : Tree S T E}

def hashed (t : Tree S T E) : List Bytes :=
  t.entries.flatMap fun e => t.validity.machine.hashed e.block (t.state? e.id)

theorem hashed_subset {id : String} {e : Entry T} (he : t.entry? id = some e) :
    t.validity.machine.hashed e.block (t.state? id) ⊆ t.hashed := by
  intro x hx
  have hmem : e ∈ t.entries := List.mem_of_find?_eq_some he
  rw [← Entry.id_of_find? he] at hx
  exact List.mem_flatMap.2 ⟨e, hmem, hx⟩

theorem Sound.commits (ht : Sound settings t) {id : String} {e : Entry T} {s : S}
    (he : t.entry? id = some e) (hs : t.state? id = some s) :
    settings.machine.Commits id e.block s := by
  rcases ht.rests he hs with ⟨_, hfirst⟩ | hrests
  · have hgenesis := hfirst.genesis
    have hshape := Machine.wellFormed_genesisBlock hgenesis
    obtain ⟨bodyRoot, stateRoot, hbody, hstate, hblock⟩ :=
      Machine.genesisBlock_eq_ok_iff.1 hgenesis
    rw [hfirst.state_eq]
    refine ⟨hshape, hfirst.id_eq, ?_, ?_⟩
    · rw [← hblock]
      exact hbody
    · rw [← hblock]
      exact hstate
  · obtain ⟨_, _, haccepts⟩ := hrests.accepted
    rw [ht.validity] at haccepts
    exact ⟨haccepts.wellFormed, hrests.id_eq, haccepts.bodyRoot, haccepts.stateRoot⟩

theorem Sound.height_nonneg (ht : Sound settings t) {id : String} {e : Entry T}
    (he : t.entry? id = some e) : 0 ≤ e.height := by
  obtain ⟨s, hs⟩ := ht.exists_state he
  rcases ht.rests he hs with ⟨_, hfirst⟩ | hrests
  · exact Int.le_of_eq hfirst.height_eq.symm
  · obtain ⟨_, _, _, hd⟩ := Header.exists_digests (ht.commits he hs).wellFormed
    rw [hrests.height_eq]
    exact hd.height_nonneg

theorem Sound.entry_eq (ht : Sound settings t) {id : String} {e : Entry T}
    (he : t.entry? id = some e) :
    e = ⟨id, e.block, if e.block.header.height = 0 then none else some e.block.header.parent,
      e.block.header.height⟩ := by
  -- of all blocks of a tree only the first is at height zero
  have hid := Entry.id_of_find? he
  obtain ⟨s, hs⟩ := ht.exists_state he
  rcases ht.rests he hs with ⟨_, hfirst⟩ | hrests
  · obtain ⟨_, _, _, _, hblock⟩ := Machine.genesisBlock_eq_ok_iff.1 hfirst.genesis
    have hzero : e.block.header.height = 0 := by rw [← hblock]
    rw [if_pos hzero, hzero]
    calc e = ⟨e.id, e.block, e.parent, e.height⟩ := rfl
      _ = ⟨id, e.block, none, 0⟩ := by rw [hid, hfirst.parent_eq, hfirst.height_eq]
  · obtain ⟨parent, hparent, haccepts⟩ := hrests.accepted
    obtain ⟨p, _, hp, _, rfl⟩ := exists_of_parentContext? hparent
    have hpos : e.block.header.height ≠ 0 := by
      have hsucc := haccepts.height
      have hnonneg := ht.height_nonneg hp
      simp only at hsucc
      omega
    rw [if_neg hpos]
    calc e = ⟨e.id, e.block, e.parent, e.height⟩ := rfl
      _ = ⟨id, e.block, some e.block.header.parent, e.block.header.height⟩ := by
        rw [hid, hrests.parent_eq, hrests.height_eq]

section Agree

variable {m : Machine S T E} {same : S → S → Prop} {mend : T → T} (hm : m.Faithful same mend)
  (ht : Sound settings t) (hu : Sound settings' u) (hmt : settings.machine = m)
  (hmu : settings'.machine = m) (hshort : ∀ x ∈ t.hashed, x.length < Rlp.limit)
  (hfree : CollisionFree (t.hashed ++ u.hashed))

include hm ht hu hmt hmu hshort hfree

theorem agree_of_entry {id : String} {e f : Entry T} (he : t.entry? id = some e)
    (hf : u.entry? id = some f) :
    e.mapBody mend = f.mapBody mend ∧ ∃ s s', t.state? id = some s ∧ u.state? id = some s' ∧ same s s' := by
  obtain ⟨s, hs⟩ := ht.exists_state he
  obtain ⟨s', hs'⟩ := hu.exists_state hf
  have hsub := hashed_subset he
  have hsub' := hashed_subset hf
  rw [hs, ht.validity, hmt] at hsub
  rw [hs', hu.validity, hmu] at hsub'
  have hcommits := ht.commits he hs
  have hcommits' := hu.commits hf hs'
  rw [hmt] at hcommits
  rw [hmu] at hcommits'
  obtain ⟨hheader, hbody, hsame⟩ := hcommits.agree hm hcommits' (fun x hx => hshort x (hsub hx))
    (hfree.restrict hsub hsub')
  refine ⟨?_, s, s', hs, hs', hsame⟩
  rw [ht.entry_eq he, hu.entry_eq hf, Entry.mapBody, Entry.mapBody, hheader, hbody]

theorem Lineage.agree {id : String} {es fs : List (Entry T)} (h : t.Lineage id es)
    (h' : u.Lineage id fs) : es.map (Entry.mapBody mend) = fs.map (Entry.mapBody mend) := by
  induction h generalizing fs with
  | @first id e he hp =>
      cases h' with
      | first hf _ =>
          rw [List.map_singleton, List.map_singleton,
            (agree_of_entry hm ht hu hmt hmu hshort hfree he hf).1]
      | @next _ _ f _ hf hq _ =>
          have hparent : e.parent = f.parent :=
            Entry.parent_eq_of_mapBody (agree_of_entry hm ht hu hmt hmu hshort hfree he hf).1
          rw [← hparent, hp] at hq
          cases hq
  | @next id parent e es he hp _ ih =>
      cases h' with
      | @first _ f hf hq =>
          have hparent : e.parent = f.parent :=
            Entry.parent_eq_of_mapBody (agree_of_entry hm ht hu hmt hmu hshort hfree he hf).1
          rw [← hparent, hp] at hq
          cases hq
      | @next _ _ f _ hf hq hrest =>
          have heq := (agree_of_entry hm ht hu hmt hmu hshort hfree he hf).1
          have hparent : e.parent = f.parent := Entry.parent_eq_of_mapBody heq
          rw [← hparent, hp, Option.some.injEq] at hq
          subst hq
          rw [List.map_cons, List.map_cons, heq, ih hrest]

end Agree

end Tree

namespace Genesis.Kind

variable {k : Kind} {settings : Settings k.State k.Extrinsic k.Cause}
  {t : Tree k.State k.Extrinsic k.Cause}

end Genesis.Kind

namespace Sums

def plainSettings : Settings SumProduct.State Int SumProduct.Failure where
  machine := SumProduct.machine
  difficulty := .zero
  genesisState := ⟨0, 1⟩
  forkChoice := flat

def strings (first : Block Int) : List Bytes :=
  SumProduct.machine.hashed opening (some ⟨3, 3⟩) ++ SumProduct.machine.hashed first (some ⟨0, 1⟩)

end Sums

end BlockTree
