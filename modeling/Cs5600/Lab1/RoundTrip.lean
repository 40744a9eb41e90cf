import Cs5600.Lab1.CipheredQueue

/-!
# What comes out of the ciphered queue

`encode_enqueue` stores what `encode` returns, which is `"ILLCHAR"` for a string with an illegal
character. `dequeue_decode` takes a string `"ILLCHAR"` for such a mark, and otherwise gives back
what `decode` leaves in the node, whatever `decode` returns. So a string that is encoded as
`"ILLCHAR"` does not come back, and one with an illegal character comes out half decoded.
-/

namespace Cs5600.Lab1

variable {A : Allocator} {h : Nodes} {q : Queue} {cells : Cells} {key : ℤ}

/-- `dequeue_decode` gives a node that holds `data`. -/
def Yields (h : Nodes) (q : Queue) (key : ℤ) (data : Text) : Prop :=
  ∃ pnode q' h' node, dequeueDecode trapping q key h = .ok (some pnode, q', h') ∧
    h'.lookup pnode = some node ∧ node.data = data

/-- Any head is given back as it is, or as `decode` leaves it. -/
theorem yields_iff {x : ℕ × Node} (hq : Holds h q (x :: cells)) {buffer r : Text}
    (hdecode : decode trapping x.2.data key = .ok (buffer, r)) {data : Text} :
    Yields h q key data ↔ data = if x.2.data = illchar then illchar else buffer := by
  obtain ⟨q', hdequeue, -⟩ := dequeue_cons hq
  have hx := hq.seg.2.1
  -- `dequeue_decode` in one line: the head's node, its data decoded in place.
  have hrun : dequeueDecode trapping q key h = .ok (some x.1, q',
      if x.2.data = illchar then h else h.insert x.1 ⟨buffer, x.2.next⟩) := by
    simp only [dequeueDecode, hdequeue, ok_bind, nodeAt_of_lookup hx]
    split_ifs
    · rfl
    · rw [hdecode]
      rfl
  have hnode : (if x.2.data = illchar then h else h.insert x.1 ⟨buffer, x.2.next⟩).lookup x.1 =
      some ⟨if x.2.data = illchar then illchar else buffer, x.2.next⟩ := by
    split_ifs with heq
    · rw [hx, ← heq]
    · exact Finmap.lookup_insert _
  constructor
  · rintro ⟨pnode, q'', h', node, hrun', hnode', rfl⟩
    rw [hrun] at hrun'
    obtain ⟨hpnode, hrest⟩ := Prod.mk.inj (Except.ok.inj hrun')
    obtain ⟨-, rfl⟩ := Prod.mk.inj hrest
    rw [← Option.some.inj hpnode, hnode] at hnode'
    rw [← Option.some.inj hnode']
  · rintro rfl
    exact ⟨x.1, q', _, _, hrun, hnode, rfl⟩

/-- The mark comes back as it is: it is not decoded. -/
theorem yields_illchar {x : ℕ × Node} (hq : Holds h q (x :: cells)) (hx : x.2.data = illchar) :
    Yields h q key illchar := by
  obtain ⟨q', hdequeue, -⟩ := dequeue_cons hq
  have hlookup := hq.seg.2.1
  refine ⟨x.1, q', h, x.2, ?_, hlookup, hx⟩
  simp only [dequeueDecode, hdequeue, ok_bind, nodeAt_of_lookup hlookup, if_pos hx]
  rfl

/-! ## Strings that are taken for the mark -/

/-- The text `ILLCHAR` is itself legal. -/
theorem alnum_illchar : Alnum illchar := by decide +kernel

/-- Only whole turns of the alphabet keep `"ILLCHAR"`. -/
theorem map_shift_illchar {n : ℤ} : illchar.map (shift n) = illchar ↔ 26 ∣ n := by
  constructor
  · intro h
    -- The letter I stays itself only when the shift is a multiple of 26.
    have hhead : shift n 73 = 73 := (List.cons.inj h).1
    have hI : alphabet 73 = some (65, 26) := by decide
    have hnat := (alphabet_ofInt hI (((73 : UInt8).toNat : ℤ) - 65 + n)).2
    simp only [shift, hI] at hhead
    rw [hhead, show (73 : UInt8).toNat = 73 from rfl] at hnat
    omega
  · rintro ⟨m, rfl⟩
    have hletter : ∀ c, alphabet c = some (65, 26) → shift (26 * m) c = c := by
      intro c hc
      have hzero := shift_zero c
      simp only [shift, hc] at hzero ⊢
      rw [Int.add_mul_emod_self_left]
      rwa [Int.add_zero] at hzero
    have hall : ∀ c ∈ illchar, alphabet c = some (65, 26) := by decide +kernel
    exact (List.map_congr_left fun c hc => hletter c (hall c hc)).trans (List.map_id' _)

/-- A string with an illegal character keeps it, so it does not become `"ILLCHAR"`. -/
theorem append_illegalPart_ne {d s : Text} (hd : ¬ Alnum d) : s ++ illegalPart d ≠ illchar := by
  intro h
  have hmem : ∀ c ∈ illegalPart d, alphabet c ≠ none := fun c hc =>
    alnum_illchar c (h ▸ List.mem_append_right s hc)
  have hne : illegalPart d ≠ [] := by
    intro hnil
    refine hd fun c hc => Option.isSome_iff_ne_none.mp ?_
    exact List.dropWhile_eq_nil_iff.mp hnil c hc
  have hhead := List.head_dropWhile_not (fun c => (alphabet c).isSome) hne
  exact hmem _ (List.head_mem hne)
    (Option.isNone_iff_eq_none.mp (Option.isSome_eq_false_iff.mp hhead))

/-! ## The two laws -/

/-- What `encode_enqueue` appends for `s` comes out as `s`, of every queue at whose head it
stands. -/
def RoundTrips (key : ℤ) (s : Text) : Prop :=
  ∀ A h q cells, Holds h q cells → ∃ q' h' cells' e,
    encodeEnqueue A trapping q s key h = .ok (q', h') ∧ Holds h' q' cells' ∧
      Cells.datas cells' = Cells.datas cells ++ [e] ∧
      ∀ h q x cells, Holds h q (x :: cells) → x.2.data = e → Yields h q key s

/-- With `d` at the head, what comes out is what `decode` returns: the decoded string, or
`"ILLCHAR"` when `d` has a character that is neither a digit nor a letter. -/
def Agrees (key : ℤ) (d : Text) : Prop :=
  ∃ buffer, decode trapping d key =
      .ok (buffer, if Alnum d then d.map (shift (-key)) else illchar) ∧
    ∀ h q x cells, Holds h q (x :: cells) → x.2.data = d →
      Yields h q key (if Alnum d then d.map (shift (-key)) else illchar)

/-- A queue of one node. -/
theorem holds_single (d : Text) :
    Holds ((∅ : Nodes).insert 0 ⟨d, none⟩) ⟨some 0, some 0⟩ [(0, ⟨d, none⟩)] where
  seg := ⟨rfl, Finmap.lookup_insert _, rfl⟩
  tail := rfl

/-- A legal text comes back from `encode` and `decode` unless its code is the word for an illegal
character. -/
theorem roundTrips_iff (hkey : 0 ≤ key) {s buffer e buffer' r : Text} (hs : Alnum s)
    (hencode : encode trapping s key = .ok (buffer, e))
    (hdecode : decode trapping e key = .ok (buffer', r)) :
    RoundTrips key s ↔ (s = illchar.map (shift (-key)) → 26 ∣ key) := by
  have he : e = s.map (shift key) := by
    obtain ⟨rfl, he⟩ := encode_trapping hkey hencode
    rw [he, if_pos hs, hs.parts.1, hs.parts.2, List.append_nil]
  have hbuffer' : buffer' = s := by
    have heAlnum : Alnum e := he ▸ hs.map_shift key
    rw [(decode_trapping hdecode).1, heAlnum.parts.1, heAlnum.parts.2, List.append_nil, he,
      map_shift_neg]
  have hmark : e = illchar ↔ s = illchar.map (shift (-key)) := by
    constructor
    · rintro rfl
      rw [he, map_shift_neg]
    · intro h
      have hback := map_shift_neg (-key) illchar
      rwa [Int.neg_neg, ← h, ← he] at hback
  have hyields : ∀ {h q x cells}, Holds h q (x :: cells) → x.2.data = e →
      (Yields h q key s ↔ (e = illchar → s = illchar)) := by
    rintro h q x cells hq rfl
    rw [yields_iff hq hdecode, hbuffer']
    split_ifs with h
    · exact ⟨fun heq _ => heq, fun heq => heq h⟩
    · exact iff_of_true rfl fun heq => absurd heq h
  have hcond : (e = illchar → s = illchar) ↔ (s = illchar.map (shift (-key)) → 26 ∣ key) := by
    rw [hmark]
    refine imp_congr_right fun h => ?_
    rw [h, map_shift_illchar, Int.dvd_neg]
  rw [← hcond]
  constructor
  · intro hrt
    -- What the one node of a queue holds is enough to tell.
    obtain ⟨q', h', cells', e', hrun, hq', hdatas, hout⟩ :=
      hrt (above 0) ∅ ⟨none, none⟩ [] ⟨rfl, rfl⟩
    obtain ⟨q'', h'', cells'', henqueue, hq'', hdatas'', -⟩ :=
      enqueue_spec (above 0) e (⟨rfl, rfl⟩ : Holds ∅ ⟨none, none⟩ [])
    simp only [encodeEnqueue, hencode, ok_bind, henqueue] at hrun
    obtain ⟨rfl, rfl⟩ := Prod.mk.inj (Except.ok.inj hrun)
    have hee : e' = e := by
      have hcells : cells'' = cells' := hq''.seg.unique hq'.seg
      subst hcells
      exact List.singleton_inj.mp (hdatas.symm.trans hdatas'')
    exact (hyields (holds_single e) rfl).mp (hout _ _ _ _ (holds_single e) hee.symm)
  · intro hcond A h q cells hq
    obtain ⟨q', h', cells', henqueue, hq', hdatas, -⟩ := enqueue_spec A e hq
    refine ⟨q', h', cells', e, ?_, hq', hdatas, fun h q x cells hq hx => (hyields hq hx).mpr hcond⟩
    simp only [encodeEnqueue, hencode, ok_bind, henqueue]

/-- `decode` tells legal from illegal input unless the input is the word for an illegal
character. -/
theorem agrees_iff {d buffer r : Text} (hdecode : decode trapping d key = .ok (buffer, r)) :
    Agrees key d ↔ Alnum d ∧ (d = illchar → 26 ∣ key) := by
  obtain ⟨hbuffer, hr⟩ := decode_trapping hdecode
  by_cases hd : Alnum d
  · have hplain : buffer = d.map (shift (-key)) := by
      rw [hbuffer, hd.parts.1, hd.parts.2, List.append_nil]
    rw [if_pos hd, hplain] at hr
    simp only [Agrees, hd, if_true, true_and]
    -- The queue's answer is the decoded text, or `illchar` as it stands.
    have hyields : ∀ {h q x cells}, Holds h q (x :: cells) → x.2.data = d →
        (Yields h q key (d.map (shift (-key))) ↔ (d = illchar → 26 ∣ key)) := by
      rintro h q x cells hq rfl
      rw [yields_iff hq hdecode, hplain]
      split_ifs with h
      · rw [h, map_shift_illchar, Int.dvd_neg]
        exact ⟨fun hdvd _ => hdvd, fun hdvd => hdvd rfl⟩
      · exact iff_of_true rfl fun heq => absurd heq h
    constructor
    · rintro ⟨-, -, hout⟩
      exact (hyields (holds_single d) rfl).mp (hout _ _ _ _ (holds_single d) rfl)
    · intro hcond
      exact ⟨buffer, hdecode.trans (by rw [hr]), fun h q x cells hq hx => (hyields hq hx).mpr hcond⟩
  · refine iff_of_false ?_ fun h => hd h.1
    rintro ⟨-, -, hout⟩
    -- Text outside the alphabet comes back half decoded, with its tail behind.
    have hyields := hout _ _ _ _ (holds_single d) rfl
    have hne : d ≠ illchar := fun heq => hd (heq ▸ alnum_illchar)
    rw [yields_iff (holds_single d) hdecode, if_neg hd] at hyields
    simp only [if_neg hne, hbuffer] at hyields
    exact append_illegalPart_ne hd hyields.symm

/-- A string of digits and letters comes back, unless it is encoded as `"ILLCHAR"`; and what comes
out is what `decode` returns, unless the string has an illegal character or is `"ILLCHAR"`. What
stands for an illegal plaintext comes out as `"ILLCHAR"`. -/
theorem dequeueDecode_encodeEnqueue (hkey : 0 ≤ key) :
    (∀ s, Alnum s → (∃ buffer e buffer' r, encode trapping s key = .ok (buffer, e) ∧
        decode trapping e key = .ok (buffer', r)) →
      (RoundTrips key s ↔ (s = illchar.map (shift (-key)) → 26 ∣ key))) ∧
    (∀ d, (∃ buffer r, decode trapping d key = .ok (buffer, r)) →
      (Agrees key d ↔ Alnum d ∧ (d = illchar → 26 ∣ key))) ∧
    ∀ s buffer e, ¬ Alnum s → encode trapping s key = .ok (buffer, e) →
      ∀ h q x cells, Holds h q (x :: cells) → x.2.data = e → Yields h q key illchar := by
  refine ⟨?_, ?_, ?_⟩
  · rintro s hs ⟨buffer, e, buffer', r, hencode, hdecode⟩
    exact roundTrips_iff hkey hs hencode hdecode
  · rintro d ⟨buffer, r, hdecode⟩
    exact agrees_iff hdecode
  · intro s buffer e hs hencode h q x cells hq hx
    refine yields_illchar hq (hx.trans ?_)
    rw [(encode_trapping hkey hencode).2, if_neg hs]

/-- The key 3, with the string `"Xy9"` and the mark. -/
theorem dequeueDecode_encodeEnqueue_three :
    RoundTrips 3 (text "Xy9") ∧ Agrees 3 (text "Ab2") ∧ ¬ Agrees 3 (text "a-b") := by
  obtain ⟨hround, hagree, -⟩ := dequeueDecode_encodeEnqueue (show (0 : ℤ) ≤ 3 by decide)
  have hencode : encode trapping (text "Xy9") 3 = .ok (text "Ab2", text "Ab2") := by decide +kernel
  have hdecode : decode trapping (text "Ab2") 3 = .ok (text "Xy9", text "Xy9") := by decide +kernel
  have hhalf : decode trapping (text "a-b") 3 = .ok (text "x-b", illchar) := by decide +kernel
  refine ⟨?_, ?_, ?_⟩
  · exact (hround _ (by decide +kernel) ⟨_, _, _, _, hencode, hdecode⟩).mpr (by decide +kernel)
  · exact (hagree _ ⟨_, _, hdecode⟩).mpr (by decide +kernel)
  · intro h
    exact absurd ((hagree _ ⟨_, _, hhalf⟩).mp h).1 (by decide +kernel)

/-- `HKKBGZQ` is encoded as `ILLCHAR` with the key 1, and `a-b` comes out as `z-b`. -/
theorem not_roundTrips_one : Alnum (text "HKKBGZQ") ∧
    encode trapping (text "HKKBGZQ") 1 = .ok (text "ILLCHAR", text "ILLCHAR") ∧
    ¬ RoundTrips 1 (text "HKKBGZQ") ∧
    decode trapping (text "a-b") 1 = .ok (text "z-b", text "ILLCHAR") ∧ ¬ Agrees 1 (text "a-b") ∧
    Yields ((∅ : Nodes).insert 0 ⟨text "a-b", none⟩) ⟨some 0, some 0⟩ 1 (text "z-b") := by
  have hencode : encode trapping (text "HKKBGZQ") 1 = .ok (text "ILLCHAR", text "ILLCHAR") := by
    decide +kernel
  have hback : decode trapping (text "ILLCHAR") 1 = .ok (text "HKKBGZQ", text "HKKBGZQ") := by
    decide +kernel
  have hdecode : decode trapping (text "a-b") 1 = .ok (text "z-b", text "ILLCHAR") := by
    decide +kernel
  have hs : Alnum (text "HKKBGZQ") := by decide +kernel
  refine ⟨hs, hencode, fun h => ?_, hdecode, fun h => ?_, ?_⟩
  · have hdvd := (roundTrips_iff (by decide) hs hencode hback).mp h (by decide +kernel)
    exact absurd hdvd (by decide)
  · exact absurd ((agrees_iff hdecode).mp h).1 (by decide +kernel)
  · exact (yields_iff (holds_single _) hdecode).mpr (by decide +kernel)

end Cs5600.Lab1
