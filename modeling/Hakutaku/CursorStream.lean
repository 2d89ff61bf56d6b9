import Hakutaku.SequentialRead
import Hakutaku.Streams

/-!
# A cursor as a stream

An `AssetCursor` is a `Read`er. While its backend does not fail, it streams what the walk over the asset reads from its
position on.
-/

namespace Hakutaku
open Wire

section
variable [Crypto] [Target]

/-- An `AssetCursor`, with the state of its package. -/
structure CursorReader (P : PackageInner) where
  session : Session P
  shared : Shared

/-- `map_err(std::io::Error::other)`. -/
def otherError {α : Type} : Result α → Outcome IoKind α
  | .ok a => .ok a
  | .error (.err _) => fail .other
  | .error (.panic what) => panicked what

variable {P : PackageInner}

instance : Read (CursorReader P) where
  read r buffer :=
    let out := ((r.session.asset.cursorRead r.session.position).run.run
      { r.session.state with destination := buffer }).run r.shared
    (if r.session.asset.record.logicalLen < r.session.position then fail .invalidInput
      else otherError (out.1.1.map Prod.fst),
      out.1.2.destination, ⟨r.session.afterRead out.1, out.2⟩)
  interruptions _ := 0

/-- What is left of the asset for the walk. -/
def Asset.restFrom (asset : Asset P) (position : Nat) (v : Blocks) : Rest :=
  match asset.bytesFrom position (asset.len - position) v with
  | .ok (bytes, _) => .bytes bytes
  | .error _ => .broken (asset.len - position)

/-- A cursor whose backend does not fail, and what is left behind its position. -/
structure Walking (r : CursorReader P) (rest : Rest) : Prop where
  session : r.session.Ok
  shared : P.SoundFor (fun _ => False) r.shared
  rest : rest = r.session.asset.restFrom r.session.position.toNat r.session.state.view.blocks

theorem Walking.new (asset : Asset P) {s : Shared} (hs : P.SoundFor (fun _ => False) s) :
    Walking ⟨.new asset, s⟩ (asset.restFrom 0 (none, none)) where
  session := .new asset
  shared := hs
  rest := rfl

/-- A read of a cursor whose backend does not fail is the read of a window without buffers. -/
theorem cursorRead_exact (hP : P.Coherent) {cursor : Session P} (hc : cursor.Ok) (buffer : Bytes) :
    ((cursor.asset.cursorRead cursor.position).run.run { cursor.state with destination := buffer }).Tolerant
      (P.SoundFor fun _ => False) fun r => P.Valid cursor.asset.record r.2 ∧
        (r.1.map Prod.fst, r.2.view) =
          (cursor.asset.idealReadAt cursor.position).run.run { cursor.state.view with destination := buffer } ∧
        ∀ n position, r.1 = .ok (n, position) → position = cursor.position + UInt64.ofNat n := by
  have hin : ¬ cursor.asset.record.logicalLen < cursor.position := UInt64.not_lt.2 (UInt64.le_iff_toNat_le.2 hc.position)
  unfold Asset.cursorRead
  rw [if_neg hin]
  refine (readAtBuffered_follows hP (hc.valid.withDestination buffer) cursor.position).bind_except ?_ ?_
  · rintro n st ⟨hvalid, hspec | ⟨_, ⟨_, hfalse, -⟩, -⟩⟩
    · refine ⟨hvalid, hspec, ?_⟩
      rintro m position ⟨⟩
      rfl
    · exact hfalse.elim
  · rintro e st ⟨hvalid, hspec | ⟨_, ⟨_, hfalse, -⟩, -⟩⟩
    · refine ⟨hvalid, hspec, ?_⟩
      rintro m position ⟨⟩
    · exact hfalse.elim

variable {r r' : CursorReader P} {rest : Rest} {buffer buffer' : Bytes} {n : Nat} {asset : Asset P} {v v' : Blocks}
  {position : Nat} {bytes : Bytes}

theorem Asset.restFrom_of_ok (hbytes : asset.bytesFrom position (asset.len - position) v = .ok (bytes, v')) :
    asset.restFrom position v = .bytes bytes := by
  rw [restFrom, hbytes]

/-- The contents of an asset are what a walk from its start reads. -/
theorem Asset.restFrom_eq_bytes : asset.restFrom 0 (none, none) = .bytes bytes ↔ asset.contents = .ok bytes := by
  rw [restFrom, contents, Nat.sub_zero]
  rcases asset.bytesFrom 0 asset.len (none, none) with e | ⟨left, v'⟩
  · constructor
    · intro h
      cases h
    · intro h
      cases h
  · constructor
    · intro h
      cases h
      rfl
    · intro h
      cases h
      rfl

/-- Whatever can be read of it, the rest has the length the asset has left. -/
theorem Asset.restFrom_length (position : Nat) (v : Blocks) :
    (∃ bytes, asset.restFrom position v = .bytes bytes ∧ bytes.length = asset.len - position) ∨
      asset.restFrom position v = .broken (asset.len - position) ∧ 0 < asset.len - position := by
  rcases hbytes : asset.bytesFrom position (asset.len - position) v with e | ⟨bytes, v'⟩
  · refine .inr ⟨by rw [restFrom, hbytes], Nat.pos_of_ne_zero fun hzero => ?_⟩
    rw [hzero] at hbytes
    cases hbytes
  · exact .inl ⟨bytes, restFrom_of_ok hbytes, length_bytesFrom hbytes⟩

/-- The rest of a walk behind some of its bytes. -/
theorem Asset.restFrom_eq (hbytes : asset.bytesFrom position n v = .ok (bytes, v')) (hle : position + n ≤ asset.len) :
    asset.restFrom position v = (asset.restFrom (position + n) v').behind bytes := by
  have hsplit : asset.len - position = n + (asset.len - (position + n)) := by omega
  have hwalk : asset.bytesFrom position (asset.len - position) v =
      asset.bytesFrom (position + n) (asset.len - (position + n)) v' >>= fun out => return (bytes ++ out.1, out.2) := by
    rw [hsplit, bytesFrom_add, hbytes, ok_bind]
  rw [restFrom, restFrom, hwalk]
  rcases asset.bytesFrom (position + n) (asset.len - (position + n)) v' with _ | ⟨right, v''⟩
  · refine congrArg Rest.broken ?_
    rw [length_bytesFrom hbytes]
    exact hsplit
  · rfl

/-- A walk that comes to the end takes its first bytes. -/
theorem Asset.exists_bytesFrom (h : ¬ (asset.restFrom position v).Broken) (hle : position + n ≤ asset.len) :
    ∃ bytes v', asset.bytesFrom position n v = .ok (bytes, v') := by
  have hsplit : asset.len - position = n + (asset.len - (position + n)) := by omega
  rcases hbytes : asset.bytesFrom position n v with e | ⟨bytes, v'⟩
  · refine absurd ⟨asset.len - position, ?_⟩ h
    have hwalk : asset.bytesFrom position (asset.len - position) v = .error e := by
      rw [hsplit, bytesFrom_add, hbytes, error_bind]
    rw [restFrom, hwalk]
  · exact ⟨bytes, v', rfl⟩

/-- What one read of such a cursor does. -/
theorem Walking.read (hP : P.Coherent) (h : Walking r rest) (hsmall : buffer.length < usizeSize) (hbuffer : buffer ≠ [])
    {result : Outcome IoKind Nat}
    (hread : Read.read r buffer = (result, buffer', r')) :
    (∀ n, result = .ok n → Delivered Walking r r' rest buffer buffer' n) ∧
      ∀ stop, result = .error stop → stop ≠ .err .interrupted ∧ rest.Broken := by
  obtain ⟨hok, hshared, rfl⟩ := h
  have hin : ¬ r.session.asset.record.logicalLen < r.session.position :=
    UInt64.not_lt.2 (UInt64.le_iff_toNat_le.2 hok.position)
  have hrun := (cursorRead_exact hP hok buffer).run hshared
  generalize hout : ((r.session.asset.cursorRead r.session.position).run.run
    { r.session.state with destination := buffer }).run r.shared = out at hrun
  obtain ⟨⟨answer, st⟩, shared⟩ := out
  obtain ⟨hshared', hvalid, hspec, hmove⟩ := hrun
  have heq : Read.read r buffer =
      (otherError (answer.map Prod.fst), st.destination, ⟨r.session.afterRead (answer, st), shared⟩) := by
    show (if _ then _ else _, _, _) = _
    rw [if_neg hin, hout]
  rw [heq] at hread
  have hiff (n : Nat) (w' : Window) := @Asset.runs_idealReadAt_iff _ _ P r.session.asset
    { r.session.state.view with destination := buffer } w' n ⟨hok.valid.current, hok.valid.previous⟩ r.session.position
    hok.position hsmall
  have hlen : r.session.asset.len < u64Size := r.session.asset.record.logicalLen.toNat_lt
  rcases answer with e | ⟨n, position⟩
  · refine ⟨fun n hn => ?_, fun stop hstop => ?_⟩
    · cases hread
      rcases e with _ | _ <;> cases hn
    · refine ⟨?_, by_contra fun hrest => ?_⟩
      · cases hread
        rcases e with e | what
        · cases hstop
          nofun
        · cases hstop
          nofun
      · -- The walk goes on, and so would the read.
        obtain ⟨bytes, v', hbytes⟩ := Asset.exists_bytesFrom hrest
          (show r.session.position.toNat + min (r.session.asset.len - r.session.position.toNat) buffer.length ≤ _ by
            have hle := hok.position
            omega)
        have hruns := (hiff _ ⟨v'.1, v'.2, bytes ++ buffer.drop _⟩).2 ⟨rfl, bytes, hbytes, rfl⟩
        rw [hruns] at hspec
        cases congrArg Prod.fst hspec
  · obtain ⟨hn, bytes, hbytes, hdest⟩ := (hiff _ _).1 hspec.symm
    have hle : r.session.position.toNat + n ≤ r.session.asset.len := by
      have hposition := hok.position
      simp only at hn
      omega
    obtain rfl := hmove n position rfl
    have hnext : (r.session.position + UInt64.ofNat n).toNat = r.session.position.toNat + n := by
      rw [UInt64.toNat_add, UInt64.toNat_ofNat_of_lt' ((Nat.le_add_left _ _).trans_lt (hle.trans_lt hlen)),
        Nat.mod_eq_of_lt (hle.trans_lt hlen)]
    cases hread
    refine ⟨fun m hm => ?_, fun stop hstop => by cases hstop⟩
    obtain rfl : n = m := Except.ok.inj hm
    refine ⟨bytes, _, Asset.length_bytesFrom hbytes, ?_, hdest, Asset.restFrom_eq hbytes hle,
      ⟨⟨hvalid, ?_⟩, hshared', ?_⟩, fun hzero => ?_, le_rfl⟩
    · simp only at hn
      omega
    · exact hnext.trans_le hle
    · show _ = r.session.asset.restFrom (r.session.position + UInt64.ofNat n).toNat _
      rw [hnext]
      rfl
    · -- A read into some buffer is empty at the end only.
      have hpos := List.length_pos_iff.2 hbuffer
      have hend : r.session.asset.len - r.session.position.toNat = 0 := by
        simp only at hn
        omega
      rw [Asset.restFrom, hend]
      rfl

/-- A cursor whose backend does not fail streams what the walk reads. -/
theorem Streams.cursor (hP : P.Coherent) {bound : Nat} (hbound : bound < usizeSize) :
    Streams bound (Walking (P := P)) where
  ok hD hle hbuffer hread := (hD.read hP (hle.trans_lt hbound) hbuffer hread).1 _ rfl
  interrupted hD hle hbuffer hread := absurd rfl ((hD.read hP (hle.trans_lt hbound) hbuffer hread).2 _ rfl).1
  error hD hle hbuffer hread _ := ((hD.read hP (hle.trans_lt hbound) hbuffer hread).2 _ rfl).2
  pos hD := by
    rcases hD.rest ▸ Asset.restFrom_length _ _ with ⟨bytes, hbytes, -⟩ | ⟨heq, hpos⟩
    · cases hbytes
    · cases heq
      exact hpos

end

end Hakutaku
