import Xdp2.Parser.VisitSpec

/-!
# Headers stay inside the packet

Every callback of `__xdp2_parse` for a protocol node gets a header that starts at the sum of the
lengths moved over, is at least as long as the protocol's minimal length, and ends inside the
packet. The invariant is that offset and remaining length add up to the packet length; it rests on
`headerLen_ok`, with no assumption about the `len` operations.
-/

namespace Xdp2

open StateError

variable {α : Type}

/-- A callback of a protocol node is handed a header inside a packet of length `n`: it starts
where the headers moved over before end. Callbacks in other roles are not constrained. -/
def HeaderInBounds (p : Parser α) (n : Nat) (pre : List Event) (k : Call) : Prop :=
  ∀ id, k.role = .node id → ∃ pd, (p.graph.node id).proto_def = some pd ∧
    k.hdr = some (headerLengths pre).sum ∧ pd.min_len.toNat ≤ k.hdr_len ∧
    (headerLengths pre).sum + k.hdr_len ≤ n

/-- The loop invariant: the cursor stands where the headers moved over end, with the rest of the
packet before it. -/
structure BoundsInv (p : Parser α) (n : Nat) (c : Cursor) (s : St α) : Prop where
  calls : EachCall (HeaderInBounds p n) s.log
  off : c.hdr.off = (headerLengths s.log).sum
  len : c.hdr.off + c.len = n

theorem ptrAdd_eq (h : off + n < 2 ^ 64) : ptrAdd off n = off + n :=
  Nat.mod_eq_of_lt h

section
variable {p : Parser α} {n : Nat} {c : Cursor} {s s1 s2 : St α} {id : NodeId} {pd : ProtoDef}
  {hlen : Nat}

theorem HeaderInBounds.append_call (l : List Event) (k' k : Call)
    (h : HeaderInBounds p n l k) : HeaderInBounds p n (l ++ [.call k']) k := by
  simpa [HeaderInBounds] using h

theorem Processed.header_le (h : Processed parseLoop p c s id pd hlen s1) :
    pd.min_len.toNat ≤ hlen ∧ hlen ≤ c.len := by
  obtain ⟨i, hi, rfl⟩ := h.len
  exact headerLen_ok hi

theorem BoundsInv.processed (hI : BoundsInv p n c s) (h : Processed parseLoop p c s id pd hlen s1) :
    EachCall (HeaderInBounds p n) s1.log := by
  refine (parseLoop.eachCall hI.calls id).moves HeaderInBounds.append_call h.moves ?_
  intro k hk id' hrole
  rcases hk.role with ⟨hid, hhdr, hlen'⟩ | hsub | ⟨a, ha⟩
  · obtain rfl : id = id' := by rw [hid] at hrole; cases hrole; rfl
    have hle := h.header_le
    have hsum : (headerLengths (parseLoop.arrive s id).log).sum = c.hdr.off := by
      rw [hI.off]; simp [parseLoop, St.atNode]
    have := hI.len
    refine ⟨pd, h.proto_def, ?_, ?_, ?_⟩
    · rw [hsum, hhdr]
    · omega
    · omega
  · rw [hrole] at hsub; cases hsub
  · rw [hrole] at ha; cases ha

theorem Entered.headerLengths (h : Entered cfg c id pd s1 s2 fr) :
    headerLengths s2.log = headerLengths s1.log := by
  cases h with
  | plain => rfl
  | encap => simp [St.countEncap]

theorem BoundsInv.next (hn : n < 2 ^ 64) (hI : BoundsInv p n c s)
    (h : Processed parseLoop p c s id pd hlen s1) (hent : Entered p.config c id pd s1 s2 fr)
    (node : Option NodeId) :
    BoundsInv p n (c.advance pd hlen node fr) (s2.advance pd hlen) := by
  have hle := h.header_le
  have hlen' := hI.len
  have hoff : (Xdp2.headerLengths s2.log).sum = c.hdr.off := by
    rw [hent.headerLengths, hI.off]
    exact congrArg List.sum (h.filterMap (fun _ => rfl) fun _ => rfl)
  refine ⟨(hent.eachCall (hI.processed h)).advance pd hlen, ?_, ?_⟩
  · rw [St.advance, Cursor.advance]
    split
    · exact hoff.symm
    · simp only [Hdr.add, St.push_log, headerLengths_append, List.sum_append, hoff]
      rw [ptrAdd_eq (by omega)]
      simp
  · rw [Cursor.advance]
    dsimp only
    split
    · exact hlen'
    · rw [Hdr.add, subSize_eq hle.2 (by omega)]
      dsimp only
      rw [ptrAdd_eq (by omega)]
      omega

theorem BoundsInv.visit (hn : n < 2 ^ 64) (fuel : Nat) (hI : BoundsInv p n c s) :
    VisitSat (fun _ _ s => True ∧ EachCall (HeaderInBounds p n) s.log) (BoundsInv p n)
      (fun s => EachCall (HeaderInBounds p n) s.log) ((visit p fuel c).run s) := by
  have hout := visit_outcome p fuel c s
  generalize (Xdp2.visit p fuel c).run s = r at hout ⊢
  cases hout with
  | null => exact hI.calls
  | short hid hpd hlen => exact ⟨trivial, parseLoop.eachCall hI.calls _⟩
  | crash h => exact hI.processed h
  | stop h => exact ⟨trivial, hI.processed h⟩
  | @handler _ _ _ s1 s' k h hc hret hlog henc hcode =>
    refine ⟨trivial, ?_⟩
    rw [hlog]
    refine (hI.processed h).snoc fun k hk id' hrole => ?_
    cases hk
    have := hc.role
    rw [hrole] at this
    cases this
  | tooDeep h henc hgt => exact ⟨trivial, (hI.processed h).countEncap _ _⟩
  | noKey h hent => exact hent.eachCall (hI.processed h)
  | unknown h hent => exact ⟨trivial, hent.eachCall (hI.processed h)⟩
  | zeroLen h hent => exact ⟨trivial, (hent.eachCall (hI.processed h)).advance _ _⟩
  | next h hent => exact hI.next hn h hent _

end

/-- **Headers stay inside the packet.** In every run of `__xdp2_parse`, from any control data and
memory, each callback of a protocol node gets the offset at which the non-overlay headers so far
end, and a length between the protocol's minimal length and what is left of the packet. -/
theorem parse_headers_in_bounds (p : Parser α) (fuel : Nat) (pkt : Packet) (var : CtrlVar)
    (mem : UserMem α) :
    EachCall (HeaderInBounds p pkt.len)
      (final ((xdp2Parse p fuel pkt).run (.start var mem))).log := by
  refine parse_eachCall (I := BoundsInv p pkt.len) (Q := fun _ _ _ => True)
    HeaderInBounds.append_call ?_ (fun c s hI => hI.calls)
    (fun c s hI => hI.visit pkt.len_lt fuel) ?_
  · exact ⟨.nil, rfl, by simp [Cursor.init]⟩
  · rintro ret frame s k - hk id hrole
    obtain ⟨a, -, ha⟩ := hk.role
    rw [hrole] at ha
    cases ha

end Xdp2
