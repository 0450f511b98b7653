/-
Characters out of a stream of bytes that arrives in chunks, as `twrite` and
`ttyread` of st.c take them: a sequence that is not complete waits for the next
chunk.  The reader of the characters is any state that says for itself whether
it wants UTF-8.
-/
import Bodhi.RunInvariant
import Bodhi.Utf8Codec

namespace Bodhi

namespace St

section Decode

theorem decodeFrom_append {len j u : Nat} {bytes : List UInt8} {r n : Nat}
    (h : decodeFrom len j u bytes = (r, n)) (hn : 0 < n)
    (more : List UInt8) : decodeFrom len j u (bytes ++ more) = (r, n) := by
  induction bytes generalizing j u with
  | nil =>
      by_cases hj : j < len
      · simp only [decodeFrom, if_pos hj] at h
        obtain ⟨_, rfl⟩ := Prod.mk.inj h
        exact absurd hn (by decide)
      · simp only [decodeFrom, if_neg hj] at h
        cases more <;> simp [decodeFrom, hj, h]
  | cons c rest ih =>
      by_cases hj : j < len
      · cases hc : utf8decodebyte c with
        | mk payload type =>
          by_cases htype : type = 0
          · simp only [decodeFrom, if_pos hj, hc, htype, ne_eq,
              not_true_eq_false, if_false] at h
            simp only [List.cons_append, decodeFrom, if_pos hj, hc, htype,
              ne_eq, not_true_eq_false, if_false, ih h]
          · simp only [decodeFrom, if_pos hj, hc, ne_eq, htype,
              not_false_eq_true, if_true] at h
            simp only [List.cons_append, decodeFrom, if_pos hj, hc, ne_eq,
              htype, not_false_eq_true, if_true, h]
      · simp only [decodeFrom, if_neg hj] at h
        simp only [List.cons_append, decodeFrom, if_neg hj, h]

/-- The loop takes no more bytes than it is given, and asks for more only
where it is given fewer than the sequence has. -/
theorem decodeFrom_size {len j u : Nat} {bytes : List UInt8} {r n : Nat}
    (hj : j ≤ len) (hpos : 0 < j) (h : decodeFrom len j u bytes = (r, n)) :
    n ≤ j + bytes.length ∧ (n = 0 → j + bytes.length < len) := by
  induction bytes generalizing j u with
  | nil =>
      by_cases hlt : j < len
      · simp only [decodeFrom, if_pos hlt] at h
        obtain ⟨_, rfl⟩ := Prod.mk.inj h
        exact ⟨Nat.zero_le _, fun _ => hlt⟩
      · simp only [decodeFrom, if_neg hlt] at h
        obtain ⟨_, rfl⟩ := Prod.mk.inj h
        simp only [List.length_nil]
        omega
  | cons c rest ih =>
      rw [List.length_cons]
      by_cases hlt : j < len
      · cases hc : utf8decodebyte c with
        | mk payload type =>
          by_cases htype : type = 0
          · simp only [decodeFrom, if_pos hlt, hc, htype, ne_eq,
              not_true_eq_false, if_false] at h
            have hrest := ih hlt (Nat.succ_pos j) h
            omega
          · simp only [decodeFrom, if_pos hlt, hc, ne_eq, htype,
              not_false_eq_true, if_true] at h
            obtain ⟨_, rfl⟩ := Prod.mk.inj h
            omega
      · simp only [decodeFrom, if_neg hlt] at h
        obtain ⟨_, rfl⟩ := Prod.mk.inj h
        omega

/-- What is read does not depend on the bytes that follow. -/
theorem utf8decode_append {bytes : List UInt8} {u n : Nat}
    (h : utf8decode bytes = (u, n)) (hn : 0 < n) (more : List UInt8) :
    utf8decode (bytes ++ more) = (u, n) := by
  cases bytes with
  | nil =>
      obtain ⟨_, rfl⟩ := Prod.mk.inj h
      exact absurd hn (by decide)
  | cons c rest =>
      cases hc : utf8decodebyte c with
      | mk payload len =>
        by_cases hlen : (1 ≤ len && len ≤ utfSiz) = true
        · simp only [utf8decode, hc, if_pos hlen] at h
          simp only [List.cons_append, utf8decode, hc, if_pos hlen]
          exact decodeFrom_append h hn more
        · simp only [utf8decode, hc, if_neg hlen] at h
          simp only [List.cons_append, utf8decode, hc, if_neg hlen, h]

theorem utf8decode_size {bytes : List UInt8} {u n : Nat}
    (h : utf8decode bytes = (u, n)) :
    n ≤ bytes.length ∧ (n = 0 → bytes.length < utfSiz) := by
  cases bytes with
  | nil =>
      obtain ⟨_, rfl⟩ := Prod.mk.inj h
      exact ⟨Nat.le_refl 0, fun _ => by decide⟩
  | cons c rest =>
      rw [List.length_cons]
      cases hc : utf8decodebyte c with
      | mk payload len =>
        by_cases hlen : (1 ≤ len && len ≤ utfSiz) = true
        · simp only [utf8decode, hc, if_pos hlen] at h
          rw [Bool.and_eq_true, decide_eq_true_eq, decide_eq_true_eq] at hlen
          have hsize := decodeFrom_size hlen.1 Nat.one_pos h
          omega
        · simp only [utf8decode, hc, if_neg hlen] at h
          obtain ⟨_, rfl⟩ := Prod.mk.inj h
          omega

end Decode

section Feed

variable {T : Type*} (utf8 : T → Bool) (put : T → Nat → T)

/-- The loop of `twrite`: the state after the characters of a buffer, and the
bytes that are left of it.  Each round takes a byte at least. -/
def feedLoop : Nat → T → List UInt8 → T × List UInt8
  | 0, t, bytes => (t, bytes)
  | _ + 1, t, [] => (t, [])
  | fuel + 1, t, c :: rest =>
      if utf8 t then
        let (u, charsize) := utf8decode (c :: rest)
        if charsize = 0 then (t, c :: rest)
        else feedLoop fuel (put t u) ((c :: rest).drop charsize)
      else feedLoop fuel (put t c.toNat) rest

def feed (t : T) (bytes : List UInt8) : T × List UInt8 :=
  feedLoop utf8 put bytes.length t bytes

theorem feedLoop_fuel {fuel : Nat} {bytes : List UInt8}
    (hfuel : bytes.length ≤ fuel) (t : T) :
    feedLoop utf8 put fuel t bytes = feed utf8 put t bytes := by
  induction fuel using Nat.strongRecOn generalizing bytes t with
  | ind fuel ih =>
    cases bytes with
    | nil => cases fuel <;> rfl
    | cons c rest =>
        cases fuel with
        | zero => exact absurd hfuel (Nat.not_succ_le_zero _)
        | succ fuel =>
            have hrest : rest.length ≤ fuel := Nat.succ_le_succ_iff.1 hfuel
            rw [feed, List.length_cons, feedLoop, feedLoop]
            split
            · cases hdecode : utf8decode (c :: rest) with
              | mk u charsize =>
                dsimp only
                split
                · rfl
                · next hsize =>
                    have hdrop : ((c :: rest).drop charsize).length ≤
                        rest.length := by
                      rw [List.length_drop, List.length_cons]
                      omega
                    rw [ih fuel (Nat.lt_succ_self fuel) (hdrop.trans hrest)]
                    rcases Nat.lt_or_ge rest.length (fuel + 1) with hlt | hge
                    · rw [ih rest.length hlt hdrop]
                    · omega
            · rw [ih fuel (Nat.lt_succ_self fuel) hrest,
                ih rest.length (Nat.lt_succ_of_le hrest) (Nat.le_refl _)]

/-- What every character keeps, a buffer of them keeps. -/
theorem feed_keeps {I : T → Prop} (hput : ∀ t u, I t → I (put t u)) {t : T}
    (h : I t) (bytes : List UInt8) : I (feed utf8 put t bytes).1 := by
  have hloop : ∀ fuel (t : T) (bytes : List UInt8), I t →
      I (feedLoop utf8 put fuel t bytes).1 := by
    intro fuel
    induction fuel with
    | zero => exact fun _ _ ht => ht
    | succ fuel ih =>
        intro t bytes ht
        cases bytes with
        | nil => exact ht
        | cons c rest =>
            rw [feedLoop]
            split
            · split
              split
              · exact ht
              · exact ih _ _ (hput _ _ ht)
            · exact ih _ _ (hput _ _ ht)
  exact hloop bytes.length t bytes h

variable {utf8}

theorem feed_byte {t : T} (h : utf8 t = false) (c : UInt8)
    (rest : List UInt8) :
    feed utf8 put t (c :: rest) = feed utf8 put (put t c.toNat) rest := by
  rw [feed, List.length_cons, feedLoop, h, if_neg Bool.false_ne_true,
    feedLoop_fuel _ _ (Nat.le_refl _)]

theorem feed_char {t : T} (h : utf8 t = true) {bytes : List UInt8}
    {u charsize : Nat} (hdecode : utf8decode bytes = (u, charsize))
    (hsize : 0 < charsize) :
    feed utf8 put t bytes = feed utf8 put (put t u) (bytes.drop charsize) := by
  cases bytes with
  | nil =>
      obtain ⟨_, rfl⟩ := Prod.mk.inj hdecode
      exact absurd hsize (by decide)
  | cons c rest =>
      rw [feed, List.length_cons, feedLoop, h, if_pos rfl, hdecode]
      dsimp only
      rw [if_neg (Nat.ne_of_gt hsize)]
      apply feedLoop_fuel
      rw [List.length_drop, List.length_cons]
      omega

theorem feed_incomplete {t : T} (h : utf8 t = true) {bytes : List UInt8}
    {u : Nat} (hdecode : utf8decode bytes = (u, 0)) :
    feed utf8 put t bytes = (t, bytes) := by
  cases bytes with
  | nil => rfl
  | cons c rest =>
      rw [feed, List.length_cons, feedLoop, h, if_pos rfl, hdecode]
      rfl

/-- ASCII is put byte by byte, in UTF-8 or not. -/
theorem feed_ascii {bytes : List UInt8} (h : ∀ c ∈ bytes, c.toNat < 0x80)
    (t : T) :
    feed utf8 put t bytes = (bytes.foldl (fun t c => put t c.toNat) t, []) := by
  induction bytes generalizing t with
  | nil => rfl
  | cons c rest ih =>
      have hrest := ih fun c' hc' => h c' (List.mem_cons_of_mem c hc')
      rw [List.foldl_cons]
      cases hutf8 : utf8 t with
      | false => rw [feed_byte put hutf8, hrest]
      | true =>
          have hdecode := utf8decode_ascii (h c List.mem_cons_self) rest
          rw [feed_char put hutf8 hdecode Nat.one_pos, List.drop_one,
            List.tail_cons, hrest]

/-- More bytes are taken up where the last ones were left. -/
theorem feed_append (t : T) (bytes more : List UInt8) :
    feed utf8 put t (bytes ++ more) =
      feed utf8 put (feed utf8 put t bytes).1
        ((feed utf8 put t bytes).2 ++ more) := by
  induction hlen : bytes.length using Nat.strongRecOn generalizing bytes t with
  | ind size ih =>
    cases hutf8 : utf8 t with
    | false =>
        cases bytes with
        | nil => rfl
        | cons c rest =>
            rw [List.cons_append, feed_byte put hutf8, feed_byte put hutf8]
            exact ih rest.length (by simp [← hlen]) _ rest rfl
    | true =>
        cases hdecode : utf8decode bytes with
        | mk u charsize =>
          rcases Nat.eq_zero_or_pos charsize with rfl | hsize
          · rw [feed_incomplete put hutf8 hdecode]
          · have hbound := (utf8decode_size hdecode).1
            have hlonger := utf8decode_append hdecode hsize more
            rw [feed_char put hutf8 hlonger hsize,
              feed_char put hutf8 hdecode hsize,
              List.drop_append_of_le_length hbound]
            refine ih (bytes.drop charsize).length ?_ _ _ rfl
            rw [List.length_drop]
            omega

/-- What is left is the beginning of one sequence. -/
theorem feed_left (t : T) (bytes : List UInt8) :
    (feed utf8 put t bytes).2.length < utfSiz := by
  induction hlen : bytes.length using Nat.strongRecOn generalizing bytes t with
  | ind size ih =>
    cases hutf8 : utf8 t with
    | false =>
        cases bytes with
        | nil => exact (by decide : 0 < utfSiz)
        | cons c rest =>
            rw [feed_byte put hutf8]
            exact ih rest.length (by simp [← hlen]) _ rest rfl
    | true =>
        cases hdecode : utf8decode bytes with
        | mk u charsize =>
          have hbound := utf8decode_size hdecode
          rcases Nat.eq_zero_or_pos charsize with rfl | hsize
          · rw [feed_incomplete put hutf8 hdecode]
            exact hbound.2 rfl
          · rw [feed_char put hutf8 hdecode hsize]
            refine ih (bytes.drop charsize).length ?_ _ _ rfl
            rw [List.length_drop]
            omega

variable (utf8)

/-- `ttyread`: a chunk joins the bytes that were left. -/
def reader : Machine (T × List UInt8) (List UInt8) where
  next s chunk := feed utf8 put s.1 (s.2 ++ chunk)

/-- The chunks do not matter, and there is always room for another one. -/
theorem reader_after (t : T) (chunks : List (List UInt8)) :
    (reader utf8 put).after (t, []) chunks =
        feed utf8 put t chunks.flatten ∧
      ((reader utf8 put).after (t, []) chunks).2.length < utfSiz := by
  have hall : ∀ s : T × List UInt8, feed utf8 put s.1 s.2 = s →
      (reader utf8 put).after s chunks =
        feed utf8 put s.1 (s.2 ++ chunks.flatten) := by
    induction chunks with
    | nil =>
        intro s hs
        rw [Machine.after_nil, List.flatten_nil, List.append_nil, hs]
    | cons chunk rest ih =>
        intro s hs
        have hnext : (reader utf8 put).next s chunk =
            feed utf8 put s.1 (s.2 ++ chunk) := rfl
        have hstill : feed utf8 put (feed utf8 put s.1 (s.2 ++ chunk)).1
            (feed utf8 put s.1 (s.2 ++ chunk)).2 =
            feed utf8 put s.1 (s.2 ++ chunk) := by
          have h : feed utf8 put s.1 ((s.2 ++ chunk) ++ []) = _ :=
            feed_append put s.1 (s.2 ++ chunk) []
          rw [List.append_nil, List.append_nil] at h
          exact h.symm
        rw [Machine.after_cons, hnext, ih _ hstill, ← feed_append,
          List.flatten_cons, List.append_assoc]
  have hafter := hall (t, []) rfl
  refine ⟨hafter, ?_⟩
  rw [hafter]
  exact feed_left put t _

end Feed

end St

end Bodhi
