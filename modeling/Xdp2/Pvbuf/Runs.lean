import Xdp2.Pvbuf.AllocSpec
import Xdp2.Pvbuf.CloneFixup
import Xdp2.Pvbuf.InsertSpec
import Xdp2.Pvbuf.Length

/-!
# Runs of operations

What a caller has is the pvbufs and pbuf paddrs it holds (`World`); an operation takes what it is
given from there and puts its results there (`Step`). The invariant `Sound` is that every pvbuf is
well-formed and the manager's books are those of what is held. Every operation keeps it
(`Sound.step`), save for two (`Safe`): a pbuf of no bytes at the tail of a buffer, and a clone after
which a pbuf has more referrers than its counter can hold.
-/

namespace Xdp2

open StateError ListEnd

/-! ## What is held -/

/-- The references of all iovecs, and of the paddrs held. -/
def heldRefs (pvbufs : List Pvbuf) (held : List PbufAddr) : List Ref :=
  segRefs (pvbufs.flatMap PvbufOf.segs) ++ held.map PbufAddr.ref

/-- The pvbuf objects. -/
def heldObjs (pvbufs : List Pvbuf) : List (Nat × Nat) := pvbufs.flatMap PvbufOf.objs

theorem heldRefs_cons : heldRefs (pv :: pvbufs) held = segRefs pv.segs ++ heldRefs pvbufs held := by
  simp [heldRefs]

theorem heldObjs_cons : heldObjs (pv :: pvbufs) = pv.objs ++ heldObjs pvbufs := List.flatMap_cons

theorem heldRefs_held :
    (heldRefs pvbufs (a :: held)).Perm (a.ref :: heldRefs pvbufs held) := List.perm_middle

theorem heldRefs_perm (h : pvbufs.Perm (pv :: others)) :
    (heldRefs pvbufs held).Perm (segRefs pv.segs ++ heldRefs others held) :=
  (((h.flatMap_right _).flatMap_right _).append_right _).trans (.of_eq heldRefs_cons)

theorem heldObjs_perm (h : pvbufs.Perm (pv :: others)) :
    (heldObjs pvbufs).Perm (pv.objs ++ heldObjs others) :=
  (h.flatMap_right _).trans (.of_eq heldObjs_cons)

/-- The pvbufs and the pbuf paddrs a caller holds, and the manager. -/
structure World where
  pvbufs : List Pvbuf
  held : List PbufAddr
  st : PvSt

/-- The references of what is held. -/
def World.refs (w : World) : List Ref := heldRefs w.pvbufs w.held

/-- A paddr the caller gives: a pbuf it holds, one of its pvbufs, or an address outside the manager. What
it has left is `rest` and `held'`. -/
inductive Gives : Paddr → List Pvbuf → List PbufAddr → List Pvbuf → List PbufAddr → Prop
  | pbuf {a : PbufAddr} {pvbufs : List Pvbuf} {held held' : List PbufAddr}
      (hheld : held.Perm (a :: held')) : Gives (.leaf (.pbuf a)) pvbufs held pvbufs held'
  | short (a : ShortAddr) (pvbufs : List Pvbuf) (held : List PbufAddr) :
      Gives (.leaf (.short a)) pvbufs held pvbufs held
  | long (a : LongAddr) (b : LongAddr2) (pvbufs : List Pvbuf) (held : List PbufAddr) :
      Gives (.leaf (.long a b)) pvbufs held pvbufs held
  | pvbuf {data_length : BitVec 32} {pv : Pvbuf} {pvbufs rest : List Pvbuf} {held : List PbufAddr}
      (hpv : pvbufs.Perm (pv :: rest)) : Gives (.pvbuf data_length pv) pvbufs held rest held

/-- The data a leaf names with its length is within its buffer. -/
def Paddr.InBuffer (length : Nat) : Paddr → Prop
  | leaf s => (s.setLen length).Fits
  | pvbuf _ _ => True

theorem Gives.perm (h : Gives paddr pvbufs held rest held') (length : Nat) :
    (heldRefs pvbufs held).Perm (segRefs (paddr.entry length).segs ++ heldRefs rest held') ∧
      (heldObjs pvbufs).Perm ((paddr.entry length).objs ++ heldObjs rest) := by
  cases h with
  | pbuf hheld => exact ⟨((hheld.map _).append_left _).trans List.perm_middle, .refl _⟩
  | short a => exact ⟨.refl _, .refl _⟩
  | long a b => exact ⟨.refl _, .refl _⟩
  | pvbuf hpv => exact ⟨heldRefs_perm hpv, heldObjs_perm hpv⟩

/-! ## Operations -/

/-- The operations, with the pvbuf they are applied to. -/
inductive Op where
  | pbufAlloc (size : Nat) (tail_alloc : Bool)
  | pvbufAllocEmpty (pvbuf_size : Nat)
  | pvbufAllocParams (size fact pvbuf_off : Nat)
  | prependPaddr (pv : Pvbuf) (compress : Bool) (paddr : Paddr) (length : Nat)
  | appendPaddr (pv : Pvbuf) (compress : Bool) (paddr : Paddr) (length : Nat)
  | popHdrs (pv : Pvbuf) (compress copy : Bool) (length : Nat)
  | popTrailers (pv : Pvbuf) (compress copy : Bool) (length : Nat)
  | clone (pv : Pvbuf) (offset length : Nat)
  | free (pv : Pvbuf)

/-- An operation that returns, whether with what was asked for or without. The lengths given are exact,
and a clone is asked for no more bytes than there are. A paddr that is not taken stays the caller's. -/
inductive Step (c : MgrConfig) : Op → World → World → Prop
  | pbufAlloc {w : World} {size : Nat} {tail_alloc : Bool} {r : Option PbufAddr} {st : PvSt}
      (hrun : (pbufAlloc c size tail_alloc).run w.st = .ok r st) :
      Step c (.pbufAlloc size tail_alloc) w ⟨w.pvbufs, r.toList ++ w.held, st⟩
  | pvbufAllocEmpty {w : World} {pvbuf_size : Nat} {r : Option Pvbuf} {st : PvSt}
      (hrun : (pvbufAllocEmpty c pvbuf_size).run w.st = .ok r st) :
      Step c (.pvbufAllocEmpty pvbuf_size) w ⟨r.toList ++ w.pvbufs, w.held, st⟩
  | pvbufAllocParams {w : World} {size fact pvbuf_off : Nat} {r : Option Pvbuf} {st : PvSt}
      (hrun : (pvbufAllocParams c size fact pvbuf_off).run w.st = .ok r st) :
      Step c (.pvbufAllocParams size fact pvbuf_off) w ⟨r.toList ++ w.pvbufs, w.held, st⟩
  | prependPaddr {w : World} {pv pv' : Pvbuf} {compress ok : Bool} {paddr : Paddr} {length depth : Nat}
      {others rest : List Pvbuf} {held : List PbufAddr} {st : PvSt}
      (hpv : w.pvbufs.Perm (pv :: others)) (hdepth : pv.levels ≤ depth)
      (hgives : Gives paddr others w.held rest held) (hexact : paddr.Exact length)
      (hin : paddr.InBuffer length)
      (hrun : (prependPaddr c compress paddr.paddr1 paddr.paddr2 length depth pv).run w.st =
        .ok (pv', ok) st) :
      Step c (.prependPaddr pv compress paddr length) w
        ⟨pv' :: bif ok then rest else others, bif ok then held else w.held, st⟩
  | appendPaddr {w : World} {pv pv' : Pvbuf} {compress ok : Bool} {paddr : Paddr} {length depth : Nat}
      {others rest : List Pvbuf} {held : List PbufAddr} {st : PvSt}
      (hpv : w.pvbufs.Perm (pv :: others)) (hdepth : pv.levels ≤ depth)
      (hgives : Gives paddr others w.held rest held) (hexact : paddr.Exact length)
      (hin : paddr.InBuffer length)
      (hrun : (appendPaddr c compress paddr.paddr1 paddr.paddr2 length depth pv).run w.st =
        .ok (pv', ok) st) :
      Step c (.appendPaddr pv compress paddr length) w
        ⟨pv' :: bif ok then rest else others, bif ok then held else w.held, st⟩
  | popHdrs {w : World} {pv pv' : Pvbuf} {compress copy : Bool} {length dropped depth : Nat}
      {others : List Pvbuf} {st : PvSt}
      (hpv : w.pvbufs.Perm (pv :: others)) (hdepth : pv.levels ≤ depth)
      (hrun : (popHdrs c compress copy depth pv length).run w.st = .ok (pv', dropped) st) :
      Step c (.popHdrs pv compress copy length) w ⟨pv' :: others, w.held, st⟩
  | popTrailers {w : World} {pv pv' : Pvbuf} {compress copy : Bool} {length dropped depth : Nat}
      {others : List Pvbuf} {st : PvSt}
      (hpv : w.pvbufs.Perm (pv :: others)) (hdepth : pv.levels ≤ depth)
      (hrun : (popTrailers c compress copy depth pv length).run w.st = .ok (pv', dropped) st) :
      Step c (.popTrailers pv compress copy length) w ⟨pv' :: others, w.held, st⟩
  | clone {w : World} {pv pv' : Pvbuf} {offset length depth : Nat} {r : Option (Pvbuf × Nat)}
      {others : List Pvbuf} {st : PvSt}
      (hpv : w.pvbufs.Perm (pv :: others)) (hdepth : pv.levels ≤ depth)
      (hlen : length ≤ (pv.contents w.st.mgr.mem).length - offset)
      (hrun : (pvbufClone c depth pv offset length).run w.st = .ok (pv', r) st) :
      Step c (.clone pv offset length) w ⟨pv' :: (r.toList.map Prod.fst ++ others), w.held, st⟩
  | free {w : World} {pv : Pvbuf} {depth : Nat} {others : List Pvbuf} {st : PvSt}
      (hpv : w.pvbufs.Perm (pv :: others)) (hdepth : pv.levels ≤ depth)
      (hrun : (pvbufFree c depth pv).run w.st = .ok () st) :
      Step c (.free pv) w ⟨others, w.held, st⟩

/-- A sequence of operations, each with `P` of it and of what is held before it. -/
inductive Run (c : MgrConfig) (P : Op → World → Prop) : World → World → Prop
  | refl (w : World) : Run c P w w
  | step {w0 w w' : World} {op : Op} (hrun : Run c P w0 w) (hP : P op w) (hstep : Step c op w w') :
      Run c P w0 w'

/-! ## The invariant -/

/-- Every pvbuf is well-formed, and the books are those of what is held. -/
structure Sound (c : MgrConfig) (w : World) : Prop where
  wf : ∀ pv ∈ w.pvbufs, ∃ depth, Wf depth pv
  owns : Owns c w.st.mgr.mem w.st.mgr w.refs (heldObjs w.pvbufs)

/-- A manager just set up: nothing is held, no pbuf is counted, and every object is on its free list. -/
structure Start (c : MgrConfig) (w : World) : Prop where
  pvbufs : w.pvbufs = []
  held : w.held = []
  refcnt : ∀ btag zindex, w.st.mgr.refcnt btag zindex = 0
  pbuf_free : ∀ btag, (w.st.mgr.pbuf_free btag).Perm (List.range (c.pbuf_max_objs btag))
  pvbuf_free : ∀ size, (w.st.mgr.pvbuf_free size).Perm (List.range (c.pvbuf_max_objs size))

/-- What keeps the books right. A pbuf of no bytes at the tail of a buffer has the offset of the
next one, which names the same buffer only where its index is odd. The referrers a clone adds have
to fit the 32 bits of the counter. -/
def Safe (c : MgrConfig) : Op → World → Prop
  | .pbufAlloc size tail_alloc, w =>
    tail_alloc = true → size = 0 → ∀ zindex, nextZindex c w.st size = some zindex → zindex % 2 = 1
  | .clone pv _ _, w =>
    ∀ btag zindex, refCount w.refs btag zindex + refCount (segRefs pv.segs) btag zindex < 2 ^ 32
  | _, _ => True

theorem Start.sound (h : Start c w) : Sound c w where
  wf pv hpv := by
    rw [h.pvbufs] at hpv
    cases hpv
  owns := by
    have hrefs : w.refs = [] := by rw [World.refs, h.pvbufs, h.held]; rfl
    rw [hrefs, h.pvbufs]
    refine ⟨fun b z => ?_, ?_, ?_, fun b z => ?_, fun size i => ?_, rfl, rfl, fun _ _ _ _ => rfl⟩
    · rw [h.refcnt]
      rfl
    · exact fun _ _ hmem => by cases hmem
    · exact fun _ hmem => by cases hmem
    · rw [(h.pbuf_free b).count_eq, List.count_range]
      simp
    · rw [(h.pvbuf_free size).count_eq, List.count_range]
      exact Nat.zero_add _

/-! ## Every operation keeps it -/

theorem Sound.focus (h : Sound c w) (hpv : w.pvbufs.Perm (pv :: others)) :
    Wf pv.levels pv ∧ (∀ q ∈ others, ∃ depth, Wf depth q) ∧
      Owns c w.st.mgr.mem w.st.mgr (segRefs pv.segs ++ heldRefs others w.held)
        (pv.objs ++ heldObjs others) := by
  obtain ⟨depth, hwf⟩ := h.wf pv (hpv.mem_iff.mpr List.mem_cons_self)
  exact ⟨hwf.levels, fun q hq => h.wf q (hpv.mem_iff.mpr (List.mem_cons_of_mem _ hq)),
    h.owns.perm (heldRefs_perm hpv) (heldObjs_perm hpv)⟩

theorem Owns.rebase (h : Owns c mem m refs objs) : Owns c m.mem m refs objs :=
  { h with short := rfl, long := rfl, pbuf := fun _ _ _ _ => rfl }

theorem Sound.of_cons (hwf : Wf depth pv) (hothers : ∀ q ∈ others, ∃ depth, Wf depth q)
    (hown : Owns c mem st.mgr (segRefs pv.segs ++ heldRefs others held) (pv.objs ++ heldObjs others)) :
    Sound c ⟨pv :: others, held, st⟩ where
  wf q hq := by
    rcases List.mem_cons.mp hq with rfl | hq
    · exact ⟨depth, hwf⟩
    · exact hothers q hq
  owns := (hown.perm (.of_eq heldRefs_cons.symm) (.of_eq heldObjs_cons.symm)).rebase

theorem Sound.pbufAlloc_step (h : Sound c w) (hsafe : Safe c (.pbufAlloc size tail_alloc) w)
    (hrun : (pbufAlloc c size tail_alloc).run w.st = .ok r st) :
    Sound c ⟨w.pvbufs, r.toList ++ w.held, st⟩ := by
  refine ⟨h.wf, ?_⟩
  obtain ⟨-, -, ⟨rfl, hown⟩ | ⟨a, rfl, hown, -⟩⟩ := (pbufAlloc_spec h.owns hsafe).of_ok hrun
  · exact hown.rebase
  · exact (hown.perm heldRefs_held.symm (.refl _)).rebase

theorem Sound.pvbufAllocEmpty_step (h : Sound c w)
    (hrun : (pvbufAllocEmpty c pvbuf_size).run w.st = .ok r st) :
    Sound c ⟨r.toList ++ w.pvbufs, w.held, st⟩ := by
  obtain ⟨-, -, ⟨rfl, hown⟩ | ⟨new, rfl, hslots, hown⟩⟩ := (pvbufAllocEmpty_spec h.owns).of_ok hrun
  · exact ⟨h.wf, hown.rebase⟩
  · rw [← entrySlots_gaps] at hslots
    have hwf : Wf 1 new := ⟨_, hslots, forall_ok_gaps _⟩
    have hsegs : new.segs = [] := by rw [hslots.segs_eq, entrySegs_gaps]
    have hobjs : new.objs = [new.obj] := by rw [hslots.objs_eq, entryObjs_gaps]
    rw [← List.singleton_append, ← hobjs] at hown
    exact Sound.of_cons hwf h.wf (hown.perm (by rw [hsegs]; exact .refl _) (.refl _))

theorem Sound.pvbufAllocParams_step (h : Sound c w)
    (hrun : (pvbufAllocParams c size fact pvbuf_off).run w.st = .ok r st) :
    Sound c ⟨r.toList ++ w.pvbufs, w.held, st⟩ := by
  obtain ⟨-, ⟨rfl, hown⟩ | ⟨new, levels, rfl, hwf, -, hown⟩⟩ :=
    (pvbufAllocParams_spec h.owns).of_ok hrun
  · exact ⟨h.wf, hown.rebase⟩
  · exact Sound.of_cons hwf h.wf hown

theorem Sound.insert_step {side : Side} {insert : Pvbuf → PvM (Pvbuf × Bool)} (h : Sound c w)
    (hinsert : ∀ D, paddr.Ok D length →
      PlaceSpec c w.st.mgr.mem side pv.levels D (paddr.entry length) (TooLong length) insert)
    (hpv : w.pvbufs.Perm (pv :: others)) (hgives : Gives paddr others w.held rest held)
    (hin : paddr.InBuffer length) (hrun : (insert pv).run w.st = .ok (pv', ok) st) :
    Sound c ⟨pv' :: bif ok then rest else others, bif ok then held else w.held, st⟩ := by
  obtain ⟨hwf, hothers, hown⟩ := h.focus hpv
  have hperm := hgives.perm length
  obtain ⟨D, hok⟩ : ∃ D, paddr.Ok D length := by
    cases hgives with
    | pbuf | short | long => exact ⟨0, hin⟩
    | pvbuf hsub => exact hothers _ (hsub.mem_iff.mpr List.mem_cons_self)
  have hrest : ∀ q ∈ rest, ∃ depth, Wf depth q := by
    cases hgives with
    | pbuf | short | long => exact hothers
    | pvbuf hsub => exact fun q hq => hothers q (hsub.mem_iff.mpr (List.mem_cons_of_mem _ hq))
  have hp := (hinsert D hok hwf
    (hown.perm (hperm.1.append_left _) (hperm.2.append_left _))).of_ok hrun
  have hsegs := hp.segs
  have howns := hp.owns
  cases ok with
  | true =>
    refine Sound.of_cons hp.wf hrest (howns.perm ?_ (.refl _))
    rw [hsegs, if_pos rfl, ← List.append_assoc]
    refine List.Perm.append_right _ (List.perm_iff_count.mpr fun x => ?_)
    rw [List.count_append, count_segRefs_join, Nat.add_comm]
  | false =>
    refine Sound.of_cons hp.wf hothers (howns.perm ?_ (hperm.2.symm.append_left _))
    rw [hsegs, if_neg Bool.false_ne_true]
    exact hperm.1.symm.append_left _

theorem Sound.pop_step (h : Sound c w) (hpop : PopSpec c w.st.mgr.mem (Wf depth) side copy pop)
    (hpv : w.pvbufs.Perm (pv :: others)) (hdepth : pv.levels ≤ depth)
    (hrun : (pop pv n).run w.st = .ok (pv', dropped) st) :
    Sound c ⟨pv' :: others, w.held, st⟩ := by
  obtain ⟨hwf, hothers, hown⟩ := h.focus hpv
  have hp := ((hpop (hwf.mono hdepth) hown).outcome fun _ => False).of_ok hrun
  exact Sound.of_cons hp.wf hothers hp.owns

theorem Sound.clone_step (h : Sound c w) (hsafe : Safe c (.clone pv offset length) w)
    (hpv : w.pvbufs.Perm (pv :: others)) (hdepth : pv.levels ≤ depth)
    (hlen : length ≤ (pv.contents w.st.mgr.mem).length - offset)
    (hrun : (pvbufClone c depth pv offset length).run w.st = .ok (pv', r) st) :
    Sound c ⟨pv' :: (r.toList.map Prod.fst ++ others), w.held, st⟩ := by
  obtain ⟨hwf, hothers, hown⟩ := h.focus hpv
  have hcount : ∀ b z, refCount (segRefs pv.segs ++ heldRefs others w.held) b z +
      refCount (segRefs pv.segs) b z < 2 ^ 32 := by
    intro b z
    rw [refCount, ← (heldRefs_perm hpv).countP_eq]
    exact hsafe b z
  have hclone := pvbufClone_spec hwf hdepth hown hlen hcount
  obtain ⟨hwf', ⟨hr, hown'⟩ | ⟨clone, retlen, levels, hr, hclone, hown'⟩⟩ :=
    (hclone.outcome fun _ => False).of_ok hrun
  · obtain rfl : r = none := hr
    exact Sound.of_cons hwf' hothers hown'
  · obtain rfl : r = some (clone, retlen) := hr
    have hrest : ∀ q ∈ clone :: others, ∃ depth, Wf depth q := by
      intro q hq
      rcases List.mem_cons.mp hq with rfl | hq
      · exact ⟨levels, hclone⟩
      · exact hothers q hq
    rw [← heldRefs_cons, ← heldObjs_cons] at hown'
    exact Sound.of_cons hwf' hrest hown'

theorem Sound.free_step (h : Sound c w) (hpv : w.pvbufs.Perm (pv :: others))
    (hdepth : pv.levels ≤ depth) (hrun : (pvbufFree c depth pv).run w.st = .ok () st) :
    Sound c ⟨others, w.held, st⟩ := by
  obtain ⟨hwf, hothers, hown⟩ := h.focus hpv
  obtain ⟨-, hown'⟩ := ((pvbufFree_spec depth (hwf.mono hdepth) hown).outcome fun _ => False).of_ok hrun
  exact ⟨hothers, hown'.rebase⟩

/-- **Every safe operation keeps the invariant.** -/
theorem Sound.step {w w' : World} {op : Op} (h : Sound c w) (hsafe : Safe c op w)
    (hstep : Step c op w w') : Sound c w' := by
  cases hstep with
  | pbufAlloc hrun => exact h.pbufAlloc_step hsafe hrun
  | pvbufAllocEmpty hrun => exact h.pvbufAllocEmpty_step hrun
  | pvbufAllocParams hrun => exact h.pvbufAllocParams_step hrun
  | prependPaddr hpv hdepth hgives hexact hin hrun =>
    exact h.insert_step (fun D hok => prependPaddr_place _ ⟨_, _, hexact, hok⟩ hdepth) hpv hgives hin hrun
  | appendPaddr hpv hdepth hgives hexact hin hrun =>
    exact h.insert_step (fun D hok => appendPaddr_place _ ⟨_, _, hexact, hok⟩ hdepth) hpv hgives hin hrun
  | popHdrs hpv hdepth hrun => exact h.pop_step (popHdrs_spec _ _ _) hpv hdepth hrun
  | popTrailers hpv hdepth hrun => exact h.pop_step (popTrailers_spec _ _ _) hpv hdepth hrun
  | clone hpv hdepth hlen hrun => exact h.clone_step hsafe hpv hdepth hlen hrun
  | free hpv hdepth hrun => exact h.free_step hpv hdepth hrun

/-- **So does a run of them.** -/
theorem Sound.run (h : Sound c w0) (hrun : Run c (Safe c) w0 w) : Sound c w := by
  induction hrun with
  | refl => exact h
  | step _ hsafe hstep ih => exact ih.step hsafe hstep

/-! ## Well-formedness over runs -/

theorem Wf.inTree (h : Wf depth pv) (hq : InTree q pv) :
    (∃ d, Wf d q) ∧ ∀ o ∈ q.objs, o ∈ pv.objs := by
  induction hq generalizing depth with
  | root => exact ⟨⟨depth, h⟩, fun _ ho => ho⟩
  | @sub pv sub i data_length hget _ ih =>
    obtain _ | depth := depth
    · exact h.elim
    obtain ⟨es, hs, hok⟩ := h
    have hmem := hs.sub_mem hget
    obtain ⟨hwf, hobjs⟩ := ih (hok _ hmem).1
    refine ⟨hwf, fun o ho => ?_⟩
    rw [hs.objs_eq]
    exact List.mem_cons_of_mem _ (List.mem_flatMap.mpr ⟨_, hmem, hobjs o ho⟩)

/-- **Over every run every pvbuf stays well-formed**: the map of every pvbuf of a tree has the bits
of the slots in use, the words of a long address stand together, and cached lengths are zero or
exact, so that the length is the number of bytes either way. -/
theorem run_wellFormed {w0 w : World} {pv q : Pvbuf} (h : Sound c w0) (hrun : Run c (Safe c) w0 w)
    (hpv : pv ∈ w.pvbufs) (hq : InTree q pv) :
    q.WellFormed ∧ ∀ deep_dig n, q.levels ≤ n → (calcLength c deep_dig n q).run w.st =
      .ok ((q.contents w.st.mgr.mem).length % 2 ^ 64) w.st := by
  have hsound := h.run hrun
  obtain ⟨depth, hwf⟩ := hsound.wf pv hpv
  obtain ⟨⟨d, hwfq⟩, hobjs⟩ := hwf.inTree hq
  refine ⟨hwf.wellFormed hq, fun deep_dig n hn => ?_⟩
  have hlt : ∀ o ∈ q.objs, o.2 < c.pvbuf_max_objs o.1 := fun o ho =>
    hsound.owns.index_lt (List.mem_flatMap.mpr ⟨pv, hpv, hobjs o ho⟩)
  rw [calcLength_spec deep_dig hwfq.levels hn hlt, PvbufOf.contents, length_segBytes]

/-- The packet without its first five bytes. -/
def poppedPacket : Pvbuf :=
  { mixedPacket with
    iovec_map := 0b100
    iovec := [.null, .null, .pvbuf 0 { mixedSub with
      iovec := [.long ⟨2, 0, 5⟩, .long2 ⟨17⟩, .short ⟨.two, 32, 1⟩, .null, .null, .null, .null] },
      .null, .null, .null, .null] }

/-- The manager when they are gone, and with them the pbuf. -/
def poppedState : PvSt := { smallState with mgr := smallState.mgr.pushPbuf smallConfig 0 0 }

/-- Five bytes popped from the packet, and two appended to it. -/
theorem run_wellFormed_mixedPacket : ∃ w pv,
    Sound smallConfig ⟨[mixedPacket], [], smallState⟩ ∧
      Run smallConfig (Safe smallConfig) ⟨[mixedPacket], [], smallState⟩ w ∧ pv ∈ w.pvbufs ∧
      pv.contents w.st.mgr.mem = [17, 18, 32, 33, 64, 65] ∧ pv.WellFormed ∧
      ∀ deep_dig, (calcLength smallConfig deep_dig 2 pv).run w.st = .ok 6 w.st := by
  have hsound : Sound smallConfig ⟨[mixedPacket], [], smallState⟩ := by
    refine ⟨fun pv hpv => ?_, mixedPacket_owns⟩
    rw [List.mem_singleton.mp hpv]
    exact ⟨2, mixedPacket_wf⟩
  have hpop : (popHdrs smallConfig false false 2 mixedPacket 5).run smallState =
      .ok (poppedPacket, 5) poppedState := rfl
  obtain ⟨pv, st, happend, hcontents, hlevels⟩ : ∃ pv st,
      (appendPaddr smallConfig true (.long ⟨0, 0, 5⟩) (.long2 ⟨64⟩) 2 2 poppedPacket).run poppedState =
        .ok (pv, true) st ∧ pv.contents st.mgr.mem = [17, 18, 32, 33, 64, 65] ∧ pv.levels = 2 :=
    ⟨_, _, rfl, rfl, rfl⟩
  have hexact : (Paddr.leaf longArg.seg).Exact 2 := longArg.len_eq
  have hstep := Step.appendPaddr (w := ⟨[poppedPacket], [], poppedState⟩) (.refl _) (by decide)
    (.long _ _ [] []) hexact longArg.fits happend
  have hrun : Run smallConfig (Safe smallConfig) ⟨[mixedPacket], [], smallState⟩ ⟨[pv], [], st⟩ :=
    .step (.step (.refl _) (by trivial) (.popHdrs (.refl _) (by decide) hpop)) (by trivial) hstep
  obtain ⟨hwf, hlen⟩ := run_wellFormed hsound hrun List.mem_cons_self .root
  refine ⟨_, pv, hsound, hrun, List.mem_cons_self, hcontents, hwf, fun deep_dig => ?_⟩
  have h6 := hlen deep_dig 2 hlevels.le
  rw [hcontents] at h6
  exact h6

/-! ## References over runs -/

/-- The reference counts and free lists are those of the referrers: a pbuf with counted references has as
many as its counter says, one with a single reference has one and is not counted, and a pbuf is on its
free list once if nothing refers to it, and else not. -/
structure RefsRight (c : MgrConfig) (w : World) : Prop where
  counted : ∀ btag zindex, ⟨btag, zindex, false⟩ ∈ w.refs →
    (w.st.mgr.refcnt btag zindex).toNat = refCount w.refs btag zindex
  single : ∀ btag zindex, ⟨btag, zindex, true⟩ ∈ w.refs →
    w.st.mgr.refcnt btag zindex = 0 ∧ refCount w.refs btag zindex = 1
  free : ∀ btag zindex, (w.st.mgr.pbuf_free btag).count zindex =
    if zindex < c.pbuf_max_objs btag ∧ refCount w.refs btag zindex = 0 then 1 else 0

theorem refCount_eq (refs : List Ref) (b z : Nat) :
    refCount refs b z = refs.count ⟨b, z, false⟩ + refs.count ⟨b, z, true⟩ := by
  induction refs with
  | nil => rfl
  | cons r refs ih =>
    obtain ⟨b', z', k⟩ := r
    rw [refCount] at ih ⊢
    rw [List.countP_cons, List.count_cons, List.count_cons, ih]
    cases k <;> by_cases hb : b' = b <;> by_cases hz : z' = z <;> simp [hb, hz] <;> omega

theorem Owns.refsRight (h : Owns c w.st.mgr.mem w.st.mgr w.refs objs) : RefsRight c w where
  counted b z hmem := by
    have hnone : w.refs.count ⟨b, z, true⟩ = 0 :=
      List.count_eq_zero.mpr fun hsingle => (h.single b z hsingle).2 hmem
    rw [refCount_eq, h.refcnt, hnone, Nat.add_zero]
  single b z hmem := by
    obtain ⟨hone, hnot⟩ := h.single b z hmem
    have hnone : w.refs.count ⟨b, z, false⟩ = 0 := List.count_eq_zero.mpr hnot
    refine ⟨BitVec.eq_of_toNat_eq ?_, ?_⟩
    · rw [h.refcnt, hnone]
      rfl
    · rw [refCount_eq, hnone, hone]
  free b z := by
    have hnone : refCount w.refs b z = 0 ↔ ∀ k, ⟨b, z, k⟩ ∉ w.refs := by
      rw [refCount_eq, Nat.add_eq_zero_iff, List.count_eq_zero, List.count_eq_zero, Bool.forall_bool]
    simp only [h.pbufs, hnone]

/-- **Over every run of safe operations the reference counts are the numbers of referrers, and the free
pbufs are those without any.** -/
theorem run_refsRight {w0 w : World} (h : Start c w0) (hrun : Run c (Safe c) w0 w) : RefsRight c w :=
  (h.sound.run hrun).owns.refsRight

/-- A manager just set up. -/
def freshState (c : MgrConfig) : PvSt where
  mgr := {
    mem := smallState.mgr.mem
    refcnt := fun _ _ => 0
    pbuf_free := fun btag => List.range (c.pbuf_max_objs btag)
    pvbuf_free := fun size => List.range (c.pvbuf_max_objs size) }

theorem freshState_start (c : MgrConfig) : Start c ⟨[], [], freshState c⟩ :=
  ⟨rfl, rfl, fun _ _ => rfl, fun _ => .refl _, fun _ => .refl _⟩

/-- **Nothing leaks.** A caller that holds nothing after a run of safe operations leaves the manager
as it was set up: every pbuf and every pvbuf is free again. -/
theorem run_all_free {w0 w : World} (h : Start c w0) (hrun : Run c (Safe c) w0 w)
    (hpvbufs : w.pvbufs = []) (hheld : w.held = []) : Start c w := by
  have hown := (h.sound.run hrun).owns
  rw [World.refs, hpvbufs, hheld] at hown
  refine ⟨hpvbufs, hheld, fun b z => BitVec.eq_of_toNat_eq (hown.refcnt b z), fun b => ?_, fun size => ?_⟩
  · refine List.perm_iff_count.mpr fun z => ?_
    rw [hown.pbufs, List.count_range]
    simp [heldRefs]
  · refine List.perm_iff_count.mpr fun i => ?_
    rw [List.count_range, ← hown.pvbufs size i]
    exact (Nat.zero_add _).symm

/-- A pvbuf is allocated and freed. -/
theorem run_all_free_pvbuf : ∃ st, Run smallConfig (Safe smallConfig) ⟨[], [], freshState smallConfig⟩
    ⟨[], [], st⟩ ∧ Start smallConfig ⟨[], [], st⟩ := by
  obtain ⟨pv, st1, st2, hempty, hlevels, hfree⟩ : ∃ pv st1 st2,
      (pvbufAllocEmpty smallConfig 0).run (freshState smallConfig) = .ok (some pv) st1 ∧
        pv.levels = 1 ∧ (pvbufFree smallConfig 1 pv).run st1 = .ok () st2 := ⟨_, _, _, rfl, rfl, rfl⟩
  have hstep := Step.free (w := ⟨[pv], [], st1⟩) (.refl _) hlevels.le hfree
  have hrun : Run smallConfig (Safe smallConfig) ⟨[], [], freshState smallConfig⟩ ⟨[], [], st2⟩ :=
    ((Run.refl _).step (by trivial) (.pvbufAllocEmpty hempty)).step (by trivial) hstep
  exact ⟨st2, hrun, run_all_free (freshState_start _) hrun rfl rfl⟩

/-- A pbuf is allocated and put into a new pvbuf. Part of it is cloned, and the pvbuf is freed: the clone
is the one referrer left. -/
theorem run_refsRight_clone : Start smallConfig ⟨[], [], freshState smallConfig⟩ ∧
    ∃ pv st, Run smallConfig (Safe smallConfig) ⟨[], [], freshState smallConfig⟩ ⟨[pv], [], st⟩ ∧
      segRefs pv.segs = [⟨0, 0, false⟩] ∧ st.mgr.refcnt 0 0 = 1 ∧ st.mgr.pbuf_free 0 = [] ∧
      RefsRight smallConfig ⟨[pv], [], st⟩ := by
  obtain ⟨a, st1, halloc, hexact, hin, pv0, st2, hempty, hlevels0, pv1, st3, hprepend, hlevels1, hlen,
      hrefs, pv2, pv3, n, st4, hclone, hlevels2, hrefs3, st₅, hfree, hrefcnt, hlist⟩ :
      ∃ a st1, (pbufAlloc smallConfig 10 false).run (freshState smallConfig) = .ok (some a) st1 ∧
        (a.setLen 10).dataLen = 10 ∧ (Paddr.leaf (.pbuf a)).InBuffer 10 ∧
      ∃ pv0 st2, (pvbufAllocEmpty smallConfig 0).run st1 = .ok (some pv0) st2 ∧ pv0.levels = 1 ∧
      ∃ pv1 st3, (prependPaddr smallConfig false (.pbuf a) .null 10 1 pv0).run st2 =
          .ok (pv1, true) st3 ∧ pv1.levels = 1 ∧ (pv1.contents st3.mgr.mem).length = 10 ∧
        segRefs pv1.segs = [⟨0, 0, false⟩] ∧
      ∃ pv2 pv3 n st4, (pvbufClone smallConfig 1 pv1 2 7).run st3 = .ok (pv2, some (pv3, n)) st4 ∧
        pv2.levels = 1 ∧ segRefs pv3.segs = [⟨0, 0, false⟩] ∧
      ∃ st₅, (pvbufFree smallConfig 1 pv2).run st4 = .ok () st₅ ∧ st₅.mgr.refcnt 0 0 = 1 ∧
        st₅.mgr.pbuf_free 0 = [] :=
    ⟨_, _, rfl, rfl, by show _ ≤ _; decide, _, _, rfl, rfl, _, _, rfl, rfl, rfl, rfl, _, _, _, _, rfl, rfl,
      rfl, _, rfl, rfl, rfl⟩
  have hexact' : (Paddr.leaf (.pbuf a)).Exact 10 := .inl hexact
  have hsafe : Safe smallConfig (.clone pv1 2 7) ⟨[pv1], [], st3⟩ := by
    intro b z
    have hone : World.refs ⟨[pv1], [], st3⟩ = [⟨0, 0, false⟩] := by
      rw [World.refs, heldRefs_cons, hrefs]
      rfl
    have hle := List.countP_le_length (l := [(⟨0, 0, false⟩ : Ref)])
      (p := fun r => r.btag = b ∧ r.zindex = z)
    rw [hone, hrefs, refCount]
    exact Nat.lt_of_le_of_lt (Nat.add_le_add hle hle) (by decide)
  have hstep1 := Step.pbufAlloc (w := ⟨[], [], freshState smallConfig⟩) halloc
  have hstep2 := Step.pvbufAllocEmpty (w := ⟨[], [a], st1⟩) hempty
  have hstep3 := Step.prependPaddr (w := ⟨[pv0], [a], st2⟩) (.refl _) hlevels0.le (.pbuf (.refl _))
    hexact' hin hprepend
  have hstep4 := Step.clone (w := ⟨[pv1], [], st3⟩) (.refl _) hlevels1.le (by rw [hlen]; decide) hclone
  have hstep₅ := Step.free (w := ⟨[pv2, pv3], [], st4⟩) (.refl _) hlevels2.le hfree
  have hrun : Run smallConfig (Safe smallConfig) ⟨[], [], freshState smallConfig⟩ ⟨[pv3], [], st₅⟩ :=
    (((((Run.refl _).step (fun h => by cases h) hstep1).step (by trivial) hstep2).step (by trivial)
      hstep3).step hsafe hstep4).step (by trivial) hstep₅
  exact ⟨freshState_start _, pv3, st₅, hrun, hrefs3, hrefcnt, hlist,
    run_refsRight (freshState_start _) hrun⟩

/-- A manager with two pbufs of 64 bytes. -/
def twoPbufs : MgrConfig := { smallConfig with pbuf_max_objs := fun btag => if btag = 0 then 2 else 0 }

/-- A pbuf of no bytes at the tail of its buffer: the paddr given is that of the second pbuf, which is
free, and nothing refers to the first, which is not. -/
theorem twoPbufs_not_refsRight : Start twoPbufs ⟨[], [], freshState twoPbufs⟩ ∧
    ∃ a st, Step twoPbufs (.pbufAlloc 0 true) ⟨[], [], freshState twoPbufs⟩ ⟨[], [a], st⟩ ∧
      a.ref = ⟨0, 1, false⟩ ∧ st.mgr.pbuf_free 0 = [1] ∧ ¬ RefsRight twoPbufs ⟨[], [a], st⟩ := by
  obtain ⟨a, st, halloc, href, hfree⟩ : ∃ a st,
      (pbufAlloc twoPbufs 0 true).run (freshState twoPbufs) = .ok (some a) st ∧
        a.ref = ⟨0, 1, false⟩ ∧ st.mgr.pbuf_free 0 = [1] := ⟨_, _, rfl, rfl, rfl⟩
  have hstep := Step.pbufAlloc (w := ⟨[], [], freshState twoPbufs⟩) halloc
  refine ⟨freshState_start _, a, st, hstep, href, hfree, fun h => ?_⟩
  have hcount := h.free 0 1
  have hrefs : World.refs ⟨[], [a], st⟩ = [⟨0, 1, false⟩] := congrArg (fun r => [r]) href
  rw [hfree, hrefs] at hcount
  exact absurd hcount (by decide)

end Xdp2
