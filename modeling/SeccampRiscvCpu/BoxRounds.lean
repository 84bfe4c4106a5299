import SeccampRiscvCpu.BoxBootrom

/-!
# The rounds of the program of TopWithHDMI

In each round the box goes one cell further, or back from an edge. What was under it is in
the buffer, so that the stripes come back behind it: between two rounds the video memory
holds the stripes with the box on them, and at no time anything but the stripes and black.
-/
namespace SeccampRiscvCpu.BoxBootrom
open BusPrograms ByteMemory CoreRegisters DmemDecoder TopSystem VideoScanout WordCounters

/-! ## To and fro -/

/-- The position after `k` steps of something that goes to and fro between 0 and `n`. -/
def bounce (n k : ℕ) : ℕ := if k % (2 * n) ≤ n then k % (2 * n) else 2 * n - k % (2 * n)

/-- Whether its next step is upwards. -/
def Rising (n k : ℕ) : Prop := k % (2 * n) < n

instance (n k : ℕ) : Decidable (Rising n k) := inferInstanceAs (Decidable (_ < _))

/-- The step, as a signed number. -/
def direction (n k : ℕ) : Word := if Rising n k then 1 else -1

section
variable {n : ℕ}

theorem round_next (hn : 0 < n) (k : ℕ) :
    k % (2 * n) + 1 = 2 * n ∧ (k + 1) % (2 * n) = 0 ∨
      k % (2 * n) + 1 < 2 * n ∧ (k + 1) % (2 * n) = k % (2 * n) + 1 := by
  have hlt := Nat.mod_lt k (show 0 < 2 * n by omega)
  by_cases hlast : k % (2 * n) + 1 = 2 * n
  · exact Or.inl ⟨hlast, (rounds_wrap hlast).2⟩
  · have hmore : k % (2 * n) + 1 < 2 * n := by omega
    exact Or.inr ⟨hmore, (rounds_next hmore).2⟩

theorem bounce_cases (hn : 0 < n) (k : ℕ) : Rising n k ∧ bounce n k = k % (2 * n) ∨
    ¬ Rising n k ∧ bounce n k = 2 * n - k % (2 * n) := by
  have hlt := Nat.mod_lt k (show 0 < 2 * n by omega)
  by_cases hrising : k % (2 * n) < n
  · exact Or.inl ⟨hrising, if_pos (Nat.le_of_lt hrising)⟩
  · refine Or.inr ⟨hrising, ?_⟩
    rw [bounce]
    split_ifs <;> omega

theorem bounce_le (hn : 0 < n) (k : ℕ) : bounce n k ≤ n := by
  have hcases := bounce_cases hn k
  unfold Rising at hcases
  omega

theorem bounce_next (hn : 0 < n) (k : ℕ) :
    bounce n (k + 1) = if Rising n k then bounce n k + 1 else bounce n k - 1 := by
  have hcases := bounce_cases hn k
  have hcases' := bounce_cases hn (k + 1)
  have hnext := round_next hn k
  split_ifs with hrising
  · unfold Rising at *
    omega
  · unfold Rising at *
    omega

theorem bounce_pos (hn : 0 < n) {k : ℕ} (h : ¬ Rising n k) : 0 < bounce n k := by
  have hlt := Nat.mod_lt k (show 0 < 2 * n by omega)
  have hcases := bounce_cases hn k
  unfold Rising at *
  omega

/-- It turns round at the ends. -/
theorem rising_next (hn : 0 < n) (k : ℕ) : Rising n (k + 1) ↔
    if bounce n (k + 1) = 0 ∨ bounce n (k + 1) = n then ¬ Rising n k else Rising n k := by
  have hcases := bounce_cases hn k
  have hcases' := bounce_cases hn (k + 1)
  have hnext := round_next hn k
  split_ifs with hturn
  · unfold Rising at *
    omega
  · unfold Rising at *
    omega

theorem bounce_add (hn : 0 < n) (k : ℕ) :
    BitVec.ofNat 32 (bounce n k) + direction n k = .ofNat 32 (bounce n (k + 1)) := by
  rw [direction, bounce_next hn]
  split_ifs with hrising
  · exact (BitVec.ofNat_add ..).symm
  · obtain ⟨m, hm⟩ := Nat.exists_eq_add_of_lt (bounce_pos hn hrising)
    have hminus : (1 : Word) + -1 = 0 := by decide
    rw [hm, Nat.zero_add, Nat.add_sub_cancel, BitVec.ofNat_add, BitVec.add_assoc]
    exact (congrArg _ hminus).trans (BitVec.add_zero _)

/-- What the program makes of the direction. -/
theorem direction_next (hn : 0 < n) {size : ℕ} (hsize : n + 8 = size) (hlt : size < 2 ^ 32)
    (k : ℕ) :
    (if BitVec.ofNat 32 (bounce n (k + 1)) = 0 ∨
        BitVec.ofNat 32 (bounce n (k + 1)) + 8 = .ofNat 32 size then -direction n k
      else direction n k) = direction n (k + 1) := by
  have hle := bounce_le hn (k + 1)
  have hzero : BitVec.ofNat 32 (bounce n (k + 1)) = 0 ↔ bounce n (k + 1) = 0 := by
    rw [eq_zero_iff, BitVec.toNat_ofNat, Nat.mod_eq_of_lt (by omega)]
  have hend : BitVec.ofNat 32 (bounce n (k + 1)) + 8 = .ofNat 32 size ↔ bounce n (k + 1) = n := by
    have height : (8 : Word) = .ofNat 32 8 := rfl
    rw [height, ← BitVec.ofNat_add, ← BitVec.toNat_inj, BitVec.toNat_ofNat, BitVec.toNat_ofNat,
      Nat.mod_eq_of_lt (by omega), Nat.mod_eq_of_lt hlt]
    omega
  have hnext := rising_next hn k
  rw [if_congr (or_congr hzero hend) rfl rfl, direction, direction]
  by_cases hturn : bounce n (k + 1) = 0 ∨ bounce n (k + 1) = n
  · rw [if_pos hturn] at hnext ⊢
    by_cases hrising : Rising n k
    · rw [if_pos hrising, if_neg (mt hnext.mp (not_not_intro hrising))]
    · rw [if_neg hrising, if_pos (hnext.mpr hrising)]
      decide
  · rw [if_neg hturn] at hnext ⊢
    rw [if_congr hnext rfl rfl]

end

/-! ## The pins -/

/-- The values of the pins, one for each second. -/
def led : ℕ → Word
  | 0 => 1
  | n + 1 => (led n <<< 1) ||| ((led n >>> 5) &&& 1)

/-- On the low six pins one bit goes round. -/
theorem led_low (n : ℕ) : (led n).setWidth 6 = BitVec.twoPow 6 (n % 6) := by
  have hrotate : ∀ i < 6, (BitVec.twoPow 6 i).rotateLeft 1 = BitVec.twoPow 6 ((i + 1) % 6) := by
    decide
  have hstep : ∀ x : Word, ((x <<< 1) ||| ((x >>> 5) &&& 1)).setWidth 6 =
      (x.setWidth 6).rotateLeft 1 := by
    intro x
    apply BitVec.eq_of_getLsbD_eq
    intro i hi
    have hone : (1 : Word).getLsbD i = decide (i = 0) := by
      have hbits : ∀ i < 6, (1 : Word).getLsbD i = decide (i = 0) := by decide
      exact hbits i hi
    rw [BitVec.getLsbD_rotateLeft, BitVec.getLsbD_setWidth, BitVec.getLsbD_or, BitVec.getLsbD_and,
      hone, BitVec.getLsbD_shiftLeft, BitVec.getLsbD_ushiftRight]
    cases i with
    | zero => simp
    | succ i => simp [hi, show i + 1 < 32 by omega, show i < 6 by omega]
  induction n with
  | zero => decide
  | succ n ih =>
    rw [led, hstep, ih, hrotate _ (Nat.mod_lt _ (by decide)), Nat.mod_add_mod]

/-! ## The screen in the rounds -/

/-- The stripes. -/
def background (a : ℕ) : Byte := (stripe (a % videoWidth)).setWidth 8

/-- The box after `k` rounds. -/
def boxAt (k : ℕ) : Rectangle where
  xs := bounce 72 k
  ys := bounce 37 k
  width := boxWidth
  height := boxHeight
  right_le := by
    have hle : bounce 72 k ≤ 72 := bounce_le (by decide) k
    have hwidth : boxWidth = 8 ∧ videoWidth = 80 := ⟨rfl, rfl⟩
    omega
  bottom_le := by
    have hle : bounce 37 k ≤ 37 := bounce_le (by decide) k
    have hheight : boxHeight = 8 ∧ videoHeight = 45 := ⟨rfl, rfl⟩
    omega

/-- Before the first round there is no box. -/
def screen (k : ℕ) : ℕ → Byte :=
  if k = 0 then background else (boxAt k).paint (fun _ => 0) background

def pins (k : ℕ) : Word := if k = 0 then 0 else led ((k - 1) / 60)

/-- The variables after `k` rounds. -/
structure After (k : ℕ) (s : Main) : Prop where
  boxBuffer_eq : s.boxBuffer = (boxAt k).colours background
  ledOut_eq : s.ledOut = led ((k + 59) / 60)
  bx_eq : s.bx = .ofNat 32 (bounce 72 k)
  by_eq : s.by_ = .ofNat 32 (bounce 37 k)
  dx_eq : s.dx = direction 72 k
  dy_eq : s.dy = direction 37 k
  counter_eq : s.oneSecondCounter = .ofNat 32 (k % 60)

/-- Once there is something on the pins each cell is black or has the colour of its stripe. -/
def Striped (mem : ℕ → VramPort.Port topWithHDMI) (gpio : ℕ → Gpio) (t : ℕ) : Prop :=
  (gpio t).out ≠ 0 → ∀ a < topWithHDMI.vramAddressMax,
    (mem t).vram a = background a ∨ (mem t).vram a = 0

section
variable {v : ℕ → Byte} {k a : ℕ} {s : Main}

theorem paint_screen (k : ℕ) : (boxAt k).paint background (screen k) = background := by
  funext a
  rw [Rectangle.paint, screen]
  by_cases hzero : k = 0
  · rw [if_pos hzero, ite_self]
  · rw [if_neg hzero, Rectangle.paint]
    split_ifs <;> rfl

theorem screen_succ (k : ℕ) : screen (k + 1) = (boxAt (k + 1)).paint (fun _ => 0) background :=
  if_neg (Nat.succ_ne_zero k)

theorem screen_or (k a : ℕ) : screen k a = background a ∨ screen k a = 0 := by
  rw [screen]
  split_ifs
  · exact Or.inl rfl
  · rw [Rectangle.paint]
    split_ifs
    · exact Or.inr rfl
    · exact Or.inl rfl

theorem pins_next (k : ℕ) : pins (k + 1) = if k % 60 = 0 then led ((k + 59) / 60) else pins k := by
  rw [pins, if_neg (Nat.succ_ne_zero k), Nat.add_sub_cancel]
  split_ifs with hfirst
  · exact congrArg led (by omega)
  · rw [pins, if_neg (show k ≠ 0 by omega)]
    exact congrArg led (by omega)

theorem cell_lt {x y : ℕ} (hx : x < videoWidth) (hy : y < videoHeight) :
    y * videoWidth + x < topWithHDMI.vramAddressMax := by
  have hmax : topWithHDMI.vramAddressMax = videoHeight * videoWidth := rfl
  rw [hmax]
  calc y * videoWidth + x < y * videoWidth + videoWidth := Nat.add_lt_add_left hx _
    _ = (y + 1) * videoWidth := (Nat.succ_mul _ _).symm
    _ ≤ videoHeight * videoWidth := Nat.mul_le_mul_right _ hy

/-- A corner of the box. -/
theorem corner_toNat {n : ℕ} (hn : 0 < n) (hlt : n < 2 ^ 31) (k : ℕ) :
    (BitVec.ofNat 32 (bounce n k)).toNat = bounce n k ∧
      (BitVec.ofNat 32 (bounce n k) + 8).toNat = bounce n k + 8 := by
  have hle := bounce_le hn k
  have height : (8 : Word).toNat = 8 := rfl
  rw [BitVec.toNat_add, BitVec.toNat_ofNat, height]
  omega

end

section
variable {mem : ℕ → VramPort.Port topWithHDMI} {gpio : ℕ → Gpio}
  {undefined : ℕ → BitVec topWithHDMI.vramPixelBits} {request : ℕ → DmemRequest}
  {v : ℕ → Byte} {out : Word} (h : Runs mem gpio undefined request)

theorem Holds.striped (hv : ∀ a, v a = background a ∨ v a = 0) {t : ℕ}
    (hholds : Holds mem gpio v out t) : Striped mem gpio t := by
  intro _ a ha
  rw [hholds.1 a ha]
  exact hv a

theorem Holds.dark {t : ℕ} (hholds : Holds mem gpio v 0 t) : Striped mem gpio t :=
  fun hout => absurd hholds.2 hout

theorem holds_screen {t : ℕ} (k : ℕ) (hholds : Holds mem gpio (screen k) out t) :
    Striped mem gpio t := hholds.striped (screen_or k)

/-- Nothing of `v` in the first `k` cells. -/
def drawn (v : ℕ → Byte) (k a : ℕ) : Byte := if a < k then background a else v a

theorem drawn_succ (v : ℕ → Byte) (k : ℕ) :
    drawn v (k + 1) = Function.update (drawn v k) k (background k) := by
  funext a
  rw [Function.update_apply, drawn, drawn]
  by_cases hlast : a = k
  · rw [if_pos hlast, if_pos (by omega), hlast]
  · rw [if_neg hlast, if_congr (show a < k + 1 ↔ a < k by omega) rfl rfl]

include h

/-- The background is drawn while the pins are off. -/
theorem drawBackground_spec (v : ℕ → Byte) :
    Always (traffic mem request) (Striped mem gpio) (Holds mem gpio v 0) drawBackground
      (fun _ t => Holds mem gpio background 0 t) := by
  have hline : ∀ y < videoHeight, ∀ p, Always (traffic mem request) (Striped mem gpio)
      (fun t => p = cellPointer (y * videoWidth) ∧ Holds mem gpio (drawn v (y * videoWidth)) 0 t)
      (Program.count (fun x p => do
        .write p (stripe x)
        return p + 4) 0 videoWidth p)
      (fun p t => p = cellPointer ((y + 1) * videoWidth) ∧
        Holds mem gpio (drawn v ((y + 1) * videoWidth)) 0 t) := by
    intro y hy p
    rw [Nat.succ_mul]
    have hloop := Always.count (b := traffic mem request) (I := Striped mem gpio) (i := 0)
      (n := videoWidth)
      (J := fun x p t => p = cellPointer (y * videoWidth + x) ∧
        Holds mem gpio (drawn v (y * videoWidth + x)) 0 t)
      (fun x p => do
        .write p (stripe x)
        return p + 4)
      (fun p t hquiet hp => ⟨hp.1, stable_holds h _ _ t hquiet hp.2⟩) (fun p t hp => hp.2.dark)
      (fun x _ hx p => by
        rw [Nat.zero_add] at hx
        obtain ⟨-, hcolumn⟩ := rounds_at y hx
        have hcell : y * videoWidth + x < topWithHDMI.vramAddressMax := cell_lt hx hy
        refine .of_and fun hp => ?_
        rw [hp]
        refine .write (R := Holds mem gpio (drawn v (y * videoWidth + x + 1)) 0)
          (stable_holds h _ _) (fun t ht => ht.dark) (fun t ht hstore => ?_) ?_
        · rw [drawn_succ, background, hcolumn]
          exact ht.store_cell h hcell hstore
        · exact .done (fun t hquiet hp => ⟨hp.1, stable_holds h _ _ t hquiet hp.2⟩)
            (fun t ht => ⟨cellPointer_succ.symm, ht⟩) fun t ht => ht.2.dark) p
    rw [Nat.zero_add] at hloop
    exact hloop
  have hlines := Always.count (b := traffic mem request) (I := Striped mem gpio) (i := 0)
    (n := videoHeight)
    (J := fun y p t => p = cellPointer (y * videoWidth) ∧
      Holds mem gpio (drawn v (y * videoWidth)) 0 t)
    (fun _ p => Program.count (fun x p => do
      .write p (stripe x)
      return p + 4) 0 videoWidth p)
    (fun p t hquiet hp => ⟨hp.1, stable_holds h _ _ t hquiet hp.2⟩) (fun p t hp => hp.2.dark)
    (fun y _ hy p => hline y (by omega) p) regVram
  refine hlines.imp (fun t ht => ⟨rfl, ?_⟩) (fun _ ht => ht) fun p t ht => ⟨fun a ha => ?_, ht.2.2⟩
  · rw [Nat.zero_mul]
    exact ht
  · rw [ht.2.1 a ha]
    exact if_pos ha

theorem waitVSync_spec (hv : ∀ a, v a = background a ∨ v a = 0) (polls : ℕ) :
    Always (traffic mem request) (Striped mem gpio) (Holds mem gpio v out) (waitVSync polls)
      (fun _ t => Holds mem gpio v out t) := by
  induction polls with
  | zero => exact .done (stable_holds h _ _) (fun t ht => ht) fun t ht => ht.striped hv
  | succ polls ih =>
    refine .read (R := fun _ t => Holds mem gpio v out t) (stable_holds h _ _)
      (fun t ht => ht.striped hv) (fun t w ht hload => ht.load h hload) fun w => ?_
    split_ifs
    · exact .done (stable_holds h _ _) (fun t ht => ht) fun t ht => ht.striped hv
    · exact ih

theorem start_spec (v : ℕ → Byte) :
    Always (traffic mem request) (Striped mem gpio) (Holds mem gpio v 0) start
      (fun s t => After 0 s ∧ Holds mem gpio (screen 0) (pins 0) t) := by
  refine (drawBackground_spec h v).bind fun _ => ?_
  refine (copyFromVram_spec h (boxAt 0) fun t ht => ht.dark).bind fun buffer => ?_
  refine .of_and fun hbuffer => .done ?_ (fun t ht => ⟨?_, ht⟩) fun t ht => ht.2.dark
  · exact fun t hquiet ht => ⟨ht.1, stable_holds h _ _ t hquiet ht.2⟩
  · have hrightwards : Rising 72 0 := by decide
    have hdownwards : Rising 37 0 := by decide
    exact ⟨hbuffer, rfl, rfl, rfl, (if_pos hrightwards).symm, (if_pos hdownwards).symm, rfl⟩

/-- The variables in round `k` once the pins have their value. -/
structure Within (k : ℕ) (s : Main) : Prop where
  boxBuffer_eq : s.boxBuffer = (boxAt k).colours background
  ledOut_eq : s.ledOut = led ((k + 1 + 59) / 60)
  bx_eq : s.bx = .ofNat 32 (bounce 72 k)
  by_eq : s.by_ = .ofNat 32 (bounce 37 k)
  dx_eq : s.dx = direction 72 k
  dy_eq : s.dy = direction 37 k
  counter_eq : s.oneSecondCounter = .ofNat 32 ((k + 1) % 60)

omit h in
theorem After.within {k : ℕ} {s : Main} (hs : After k s) : Within k { s with
    ledOut := led ((k + 1 + 59) / 60)
    oneSecondCounter := if s.oneSecondCounter = 59 then 0 else s.oneSecondCounter + 1 } := by
  refine ⟨hs.boxBuffer_eq, rfl, hs.bx_eq, hs.by_eq, hs.dx_eq, hs.dy_eq, ?_⟩
  have hlast : BitVec.ofNat 32 (k % 60) = 59 ↔ k % 60 = 59 := by
    rw [← BitVec.toNat_inj, BitVec.toNat_ofNat, Nat.mod_eq_of_lt (by omega)]
    rfl
  show (if s.oneSecondCounter = 59 then 0 else s.oneSecondCounter + 1) = _
  rw [hs.counter_eq, if_congr hlast rfl rfl]
  split_ifs with hwrap
  · rw [(rounds_wrap (by omega)).2]
    rfl
  · rw [(rounds_next (show k % 60 + 1 < 60 by omega)).2, BitVec.ofNat_add]
    rfl

theorem everySecond_spec {k : ℕ} {s : Main} (hs : After k s) :
    Always (traffic mem request) (Striped mem gpio) (Holds mem gpio (screen k) (pins k))
      (everySecond s) (fun s t => Within k s ∧ Holds mem gpio (screen k) (pins (k + 1)) t) := by
  have hled : Always (traffic mem request) (Striped mem gpio)
      (Holds mem gpio (screen k) (pins k)) (nextLed s)
      (fun w t => w = led ((k + 1 + 59) / 60) ∧
        Holds mem gpio (screen k) (pins (k + 1)) t) := by
    have hstable : ∀ w : Word, Stable (traffic mem request) (fun t =>
        w = led ((k + 1 + 59) / 60) ∧ Holds mem gpio (screen k) (pins (k + 1)) t) :=
      fun w t hquiet ht => ⟨ht.1, stable_holds h _ _ t hquiet ht.2⟩
    have hfirst : s.oneSecondCounter = 0 ↔ k % 60 = 0 := by
      rw [hs.counter_eq, eq_zero_iff, BitVec.toNat_ofNat, Nat.mod_eq_of_lt (by omega)]
    have hpins := pins_next k
    rw [nextLed]
    by_cases hzero : k % 60 = 0
    · rw [if_pos (hfirst.mpr hzero)]
      rw [if_pos hzero, ← hs.ledOut_eq] at hpins
      rw [hpins]
      refine .write (stable_holds h _ _) (fun t => holds_screen k)
        (fun t ht hstore => ht.store_out h hstore) ?_
      rw [← hpins]
      refine .done (hstable _) (fun t ht => ⟨?_, ht⟩) fun t ht => holds_screen k ht.2
      have hnext : (k + 1 + 59) / 60 = (k + 59) / 60 + 1 := by omega
      rw [hpins, hs.ledOut_eq, hnext, led]
    · rw [if_neg (mt hfirst.mp hzero)]
      rw [if_neg hzero] at hpins
      refine .done (hstable _) (fun t ht => ⟨?_, ?_⟩) fun t ht => holds_screen k ht.2
      · have hsame : (k + 1 + 59) / 60 = (k + 59) / 60 := by omega
        rw [hs.ledOut_eq, hsame]
      · rwa [hpins]
  refine hled.bind fun w => .of_and fun hw => .done ?_ (fun t ht => ⟨?_, ht⟩)
    fun t ht => holds_screen k ht.2
  · exact fun t hquiet ht => ⟨ht.1, stable_holds h _ _ t hquiet ht.2⟩
  · rw [hw]
    exact hs.within

/-- A round moves the box on. -/
theorem moveBox_spec {k : ℕ} {s : Main} (hs : After k s) :
    Always (traffic mem request) (Striped mem gpio) (Holds mem gpio (screen k) (pins k))
      (moveBox s)
      (fun s t => After (k + 1) s ∧ Holds mem gpio (screen (k + 1)) (pins (k + 1)) t) := by
  refine (everySecond_spec h hs).bind fun s => .of_and fun hs => ?_
  have hnextX : s.bx + s.dx = .ofNat 32 (bounce 72 (k + 1)) := by
    rw [hs.bx_eq, hs.dx_eq, bounce_add (by decide)]
  have hnextY : s.by_ + s.dy = .ofNat 32 (bounce 37 (k + 1)) := by
    rw [hs.by_eq, hs.dy_eq, bounce_add (by decide)]
  obtain ⟨hleft, hright⟩ := corner_toNat (n := 72) (by decide) (by decide) k
  obtain ⟨htop, hbottom⟩ := corner_toNat (n := 37) (by decide) (by decide) k
  obtain ⟨hleft', hright'⟩ := corner_toNat (n := 72) (by decide) (by decide) (k + 1)
  obtain ⟨htop', hbottom'⟩ := corner_toNat (n := 37) (by decide) (by decide) (k + 1)
  simp only [hnextX, hnextY]
  rw [hs.boxBuffer_eq, hs.bx_eq, hs.by_eq, hleft, hright, htop, hbottom, hleft', hright', htop',
    hbottom']
  -- the background comes back
  have hrestore := copyToVram_spec (I := Striped mem gpio) (g := background) (v := screen k) h
    (boxAt k) (pins (k + 1)) fun i t ht => ht.striped fun a => by
      rcases Rectangle.paintFirst_or (r := boxAt k) background (screen k) i a with hnew | hold
      · exact Or.inl hnew
      · rw [hold]
        exact screen_or k a
  rw [paint_screen] at hrestore
  refine hrestore.bind fun _ => ?_
  refine (copyFromVram_spec h (boxAt (k + 1)) fun t ht => ht.striped fun a => Or.inl rfl).bind
    fun buffer => .of_and fun hbuffer => ?_
  -- and the box is drawn over it
  have hfill := fillVram_spec (I := Striped mem gpio) (v := background) h (boxAt (k + 1)) 0
    (pins (k + 1)) fun i t ht => ht.striped fun a =>
      (Rectangle.paintFirst_or (r := boxAt (k + 1)) (fun _ => 0) background i a).symm
  rw [← screen_succ] at hfill
  refine hfill.bind fun _ => .done ?_ (fun t ht => ⟨?_, ht⟩) fun t ht => holds_screen _ ht.2
  · exact fun t hquiet ht => ⟨ht.1, stable_holds h _ _ t hquiet ht.2⟩
  · refine ⟨hbuffer, hs.ledOut_eq, rfl, rfl, ?_, ?_, hs.counter_eq⟩
    · rw [hs.dx_eq]
      exact direction_next (by decide) (by decide) (by decide) k
    · rw [hs.dy_eq]
      exact direction_next (by decide) (by decide) (by decide) k

theorem rounds_spec (polls n : ℕ) {k : ℕ} {s : Main} (hs : After k s) :
    Always (traffic mem request) (Striped mem gpio) (Holds mem gpio (screen k) (pins k))
      (rounds polls n s)
      (fun r t => ∃ j ≤ n, Holds mem gpio (screen (k + j)) (pins (k + j)) t ∧
        (r ≠ none → j = n)) := by
  induction n generalizing k s with
  | zero =>
    refine .done ?_ (fun t ht => ⟨0, Nat.le_refl _, ht, fun _ => rfl⟩) ?_
    · rintro t hquiet ⟨j, hj, ht, hr⟩
      exact ⟨j, hj, stable_holds h _ _ t hquiet ht, hr⟩
    · rintro t ⟨j, -, ht, -⟩
      exact holds_screen _ ht
  | succ n ih =>
    refine (waitVSync_spec h (screen_or k) polls).bind fun synced => ?_
    cases synced with
    | false =>
      refine .done ?_ (fun t ht => ⟨0, Nat.zero_le _, ht, fun hr => absurd rfl hr⟩) ?_
      · rintro t hquiet ⟨j, hj, ht, hr⟩
        exact ⟨j, hj, stable_holds h _ _ t hquiet ht, hr⟩
      · rintro t ⟨j, -, ht, -⟩
        exact holds_screen _ ht
    | true =>
      refine (moveBox_spec h hs).bind fun s => .of_and fun hs => ?_
      refine (ih hs).imp (fun _ ht => ht) (fun _ ht => ht) ?_
      rintro r t ⟨j, hj, ht, hr⟩
      rw [Nat.add_right_comm] at ht
      exact ⟨j + 1, Nat.succ_le_succ hj, ht, fun hne => congrArg (· + 1) (hr hne)⟩

/-- The start and the rounds. -/
theorem main_comes {t u polls n : ℕ} {q : Firmware (Option Main)} (hoff : (gpio t).out = 0)
    (hcomes : Comes (traffic mem request) (main polls n) t q u) : Striped mem gpio u ∧
      ∀ s, q = .done (some s) → Holds mem gpio (screen n) (pins n) u := by
  have hmain : Always (traffic mem request) (Striped mem gpio)
      (Holds mem gpio (fun a => (mem t).vram a) 0) (main polls n)
      (fun r t => ∃ j ≤ n, Holds mem gpio (screen (0 + j)) (pins (0 + j)) t ∧
        (r ≠ none → j = n)) :=
    (start_spec h _).bind fun s => .of_and fun hs => rounds_spec h polls n hs
  obtain ⟨hstriped, hdone⟩ := hmain t u q ⟨fun _ _ => rfl, hoff⟩ hcomes
  refine ⟨hstriped, fun s hs => ?_⟩
  obtain ⟨j, -, hholds, hall⟩ := hdone _ hs
  rwa [hall (by simp), Nat.zero_add] at hholds

omit h in
theorem Striped.cell {u : ℕ} (hstriped : Striped mem gpio u) (hon : (gpio u).out ≠ 0) {x y : ℕ}
    (hx : x < videoWidth) (hy : y < videoHeight) :
    (mem u).vram (y * videoWidth + x) = (stripe x).setWidth 8 ∨
      (mem u).vram (y * videoWidth + x) = 0 := by
  have hcolour := hstriped hon _ (cell_lt hx hy)
  rwa [background, (rounds_at y hx).2] at hcolour

omit h in
/-- Where the box is after `n` rounds: black, and the stripes around it. -/
theorem screen_box {n : ℕ} (hn : 0 < n) {x y : ℕ} (hx : x < videoWidth) :
    screen n (y * videoWidth + x) =
      if (bounce 72 n ≤ x ∧ x < bounce 72 n + 8) ∧ bounce 37 n ≤ y ∧ y < bounce 37 n + 8 then 0
      else (stripe x).setWidth 8 := by
  obtain ⟨hdiv, hmod⟩ := rounds_at y hx
  have hinside : (boxAt n).Inside (y * videoWidth + x) ↔
      (bounce 72 n ≤ x ∧ x < bounce 72 n + 8) ∧ bounce 37 n ≤ y ∧ y < bounce 37 n + 8 := by
    rw [Rectangle.Inside, hdiv, hmod]
    rfl
  rw [screen, if_neg (by omega), Rectangle.paint, background, hmod, if_congr hinside rfl rfl]

/-- Whatever the video controller answers and however long the accesses take: once there is
something on the pins, every cell is black or has the colour of its stripe, on every clock.
After `n` rounds a black box of eight cells by eight is on the stripes, at the place of a box that
has gone to and fro between the edges `n` times, and one of the low six pins is on, the
next one each sixty rounds. -/
theorem box_bounces {t u polls n : ℕ} {q : Firmware (Option Main)} (hoff : (gpio t).out = 0)
    (hcomes : Comes (traffic mem request) (main polls n) t q u) :
    ((gpio u).out ≠ 0 → ∀ x < videoWidth, ∀ y < videoHeight,
      (mem u).vram (y * videoWidth + x) = (stripe x).setWidth 8 ∨
        (mem u).vram (y * videoWidth + x) = 0) ∧
    ∀ s, q = .done (some s) → 0 < n →
      (∀ x < videoWidth, ∀ y < videoHeight, (mem u).vram (y * videoWidth + x) =
        if (bounce 72 n ≤ x ∧ x < bounce 72 n + 8) ∧ bounce 37 n ≤ y ∧ y < bounce 37 n + 8 then 0
        else (stripe x).setWidth 8) ∧
      (gpio u).out.setWidth 6 = BitVec.twoPow 6 ((n - 1) / 60 % 6) := by
  obtain ⟨hstriped, hdone⟩ := main_comes h hoff hcomes
  refine ⟨fun hon x hx y hy => hstriped.cell hon hx hy, fun s hs hn => ?_⟩
  obtain ⟨hvram, hout⟩ := hdone s hs
  refine ⟨fun x hx y hy => ?_, ?_⟩
  · rw [hvram _ (cell_lt hx hy), screen_box hn hx]
  · rw [hout, pins, if_neg (by omega), led_low]

end

/-! ## Every program can be performed -/

def idleRequest : DmemRequest := ⟨0, false, false, 0, 0⟩

/-- The same bus with loads that get 4 outside the video memory, such as a vertical sync. -/
def syncTraffic (mem : ℕ → VramPort.Port topWithHDMI) (request : ℕ → DmemRequest) :
    Traffic Word Word :=
  { traffic mem request with
    loads := fun t addr w => (traffic mem request).loads t addr w ∧
      (vramRange.contains addr = false → w = 4) }

/-- A core that holds each load for two clocks and leaves one free behind it performs any
program to its end. -/
theorem performs_any {α : Type} (p : Firmware α) (m : VramPort.Port topWithHDMI)
    (hm : m.rvalid = false) : ∃ l : List DmemRequest, ∀ mem gpio request t,
      Runs mem gpio (fun _ => 0) request → mem t = m →
      (∀ i < l.length, request (t + i) = l.getD i idleRequest) →
      ∃ a, Performs (syncTraffic mem request) p t (t + l.length) a := by
  induction p generalizing m with
  | done a => exact ⟨[], fun mem gpio request t _ _ _ => ⟨a, .done a t⟩⟩
  | store addr value next ih =>
    obtain ⟨l, hl⟩ := ih
      (m.step 0 (targetRequest vramRange ⟨addr, false, true, 0b1111, value⟩)) (by
        rw [VramPort.Port.step, targetRequest]
        split_ifs <;> rfl)
    refine ⟨⟨addr, false, true, 0b1111, value⟩ :: l, ?_⟩
    intro mem gpio request t h hmem hrequest
    have hfirst : request t = ⟨addr, false, true, 0b1111, value⟩ := hrequest 0 (Nat.succ_pos _)
    obtain ⟨a, ha⟩ := hl mem gpio request (t + 1) h
      (by rw [h.mem_succ, hmem, hfirst]) (fun i hi => by
        rw [Nat.add_assoc, Nat.add_comm 1 i]
        exact hrequest (i + 1) (Nat.succ_lt_succ hi))
    refine ⟨a, .stores hfirst ?_⟩
    rw [List.length_cons, Nat.add_comm l.length, ← Nat.add_assoc]
    exact ha
  | load addr next ih =>
    let q : DmemRequest := ⟨addr, true, false, 0, 0⟩
    let m₁ := m.step 0 (targetRequest vramRange q)
    let m₂ := m₁.step 0 (targetRequest vramRange q)
    let w := if vramRange.contains addr then m₁.rdata else 4
    have hidle : (targetRequest vramRange idleRequest).ren = false := by
      rw [targetRequest]
      split_ifs <;> rfl
    obtain ⟨l, hl⟩ := ih w (m₂.step 0 (targetRequest vramRange idleRequest)) hidle
    refine ⟨q :: q :: idleRequest :: l, ?_⟩
    intro mem gpio request t h hmem hrequest
    have hfirst : request t = q := hrequest 0 (by simp)
    have hsecond : request (t + 1) = q := hrequest 1 (by simp)
    have hthird : request (t + 2) = idleRequest := hrequest 2 (by simp)
    have hmem₁ : mem (t + 1) = m₁ := by rw [h.mem_succ, hmem, hfirst]
    have hmem₂ : mem (t + 2) = m₂ := by rw [h.mem_succ, hmem₁, hsecond]
    obtain ⟨a, ha⟩ := hl mem gpio request (t + 3) h
      (by rw [h.mem_succ, hmem₂, hthird]) (fun i hi => by
        rw [Nat.add_assoc, Nat.add_comm 3 i]
        exact hrequest (i + 3) (Nat.add_lt_add_right hi 3))
    have hlength : t + (q :: q :: idleRequest :: l).length = t + 3 + l.length := by
      simp only [List.length_cons]
      omega
    have hload : (syncTraffic mem request).loads (t + 1) addr w := by
      refine ⟨⟨by rw [hsecond], by rw [hsecond], by rw [hsecond], fun hin => ⟨?_, t, rfl, ?_, ?_⟩⟩,
        fun hout => ?_⟩
      · rw [hmem₁]
        exact (if_pos hin).symm
      · rw [hfirst, hsecond]
      · rw [hmem]
        exact hm
      · exact if_neg (by rw [hout]; exact Bool.false_ne_true)
    have hquiet : ∀ u, (request u).wen = false → (syncTraffic mem request).quiet u :=
      fun u hwen hstore => absurd (hwen.symm.trans hstore) Bool.false_ne_true
    rw [hlength]
    exact ⟨a, .waits (hquiet t (by rw [hfirst])) (.loads hload
      (.waits (hquiet (t + 2) (by rw [hthird]; rfl)) ha))⟩

/-- A round that does not wait in vain. -/
theorem rounds_synced {mem : ℕ → VramPort.Port topWithHDMI} {request : ℕ → DmemRequest} :
    Triple (syncTraffic mem request) (fun _ => True) (main 1 1) (fun r _ => r ≠ none) := by
  have hany : ∀ {α : Type} (p : Firmware α),
      Triple (syncTraffic mem request) (fun _ => True) p (fun _ _ => True) :=
    fun p t u a _ _ => trivial
  refine (hany start).bind fun s => ?_
  refine Triple.bind (Q := fun synced _ => synced = true) ?_ fun synced => ?_
  · refine .read (R := fun w _ => w = 4 ∧ True) (fun _ _ _ => trivial) ?_ fun w => ?_
    · intro t w _ hload
      exact ⟨hload.2 (by decide), trivial⟩
    · refine .of_and fun hw => ?_
      have hsync : w.getLsbD 2 = true := by
        rw [hw]
        decide
      rw [if_pos hsync]
      exact .done (fun _ _ h => h) fun _ _ => rfl
  · cases synced with
    | false => exact fun t u a h _ => absurd h Bool.false_ne_true
    | true =>
      have hmove : Triple (syncTraffic mem request) (fun _ => True) (moveBox s >>= rounds 1 0)
          (fun r _ => r ≠ none) :=
        (hany (moveBox s)).bind fun s => .done (fun _ _ h => h) fun _ _ => Option.some_ne_none s
      exact hmove.imp (fun _ _ => trivial) fun _ _ h => h

/-- The start and one round, from a reset on. -/
theorem performed_once : ∃ mem gpio request u s, Runs mem gpio (fun _ => 0) request ∧
    (gpio 0).out = 0 ∧ Comes (traffic mem request) (main 1 1) 0 (.done (some s)) u := by
  obtain ⟨l, hl⟩ := performs_any (main 1 1) (.init fun _ => 0) rfl
  let request := fun t => l.getD t idleRequest
  let mem : ℕ → VramPort.Port topWithHDMI := fun t =>
    t.rec (.init fun _ => 0) fun t m => m.step 0 (targetRequest vramRange (request t))
  let gpio : ℕ → Gpio := fun t =>
    t.rec {} fun t g => g.step (targetRequest gpioRange (request t))
  have h : Runs mem gpio (fun _ => 0) request := ⟨fun _ => rfl, fun _ => rfl⟩
  obtain ⟨r, hr⟩ := hl mem gpio request 0 h rfl (fun i _ => by rw [Nat.zero_add])
  obtain ⟨s, rfl⟩ := Option.ne_none_iff_exists'.mp (rounds_synced 0 _ r trivial hr)
  have hperforms : Performs (traffic mem request) (main 1 1) 0 (0 + l.length) (some s) :=
    Performs.mono (b := syncTraffic mem request) (fun _ _ _ hload => hload.1)
      (fun _ _ _ hstore => hstore) (fun _ hquiet => hquiet) hr
  exact ⟨mem, gpio, request, _, s, h, rfl, hperforms.comes⟩

theorem box_bounces_once : ∃ mem gpio undefined request u s,
    Runs mem gpio undefined request ∧
    Comes (traffic mem request) (main 1 1) 0 (.done (some s)) u ∧
    (∀ x < videoWidth, ∀ y < videoHeight, (mem u).vram (y * videoWidth + x) =
      if (bounce 72 1 ≤ x ∧ x < bounce 72 1 + 8) ∧ bounce 37 1 ≤ y ∧ y < bounce 37 1 + 8 then 0
      else (stripe x).setWidth 8) ∧
    (gpio u).out.setWidth 6 = BitVec.twoPow 6 ((1 - 1) / 60 % 6) := by
  obtain ⟨mem, gpio, request, u, s, h, hoff, hcomes⟩ := performed_once
  exact ⟨mem, gpio, fun _ => 0, request, u, s, h, hcomes,
    (box_bounces h hoff hcomes).2 s rfl (by decide)⟩

/-! ## The box on a monitor -/

/-- The clocks of the core between the pixel clocks; `before t` of them come before pixel
clock `t`. -/
structure Interleaved (before : ℕ → ℕ) (undefined : ℕ → BitVec topWithHDMI.vramPixelBits)
    (request : ℕ → DmemRequest) (input : ℕ → HdmiPicture.PixelClock) : Prop where
  first : before 0 = 0
  mono : ∀ t, before t ≤ before (t + 1)
  core_eq : ∀ t, (input t).core = (List.range' (before t) (before (t + 1) - before t)).map
    fun u => (undefined u, targetRequest vramRange (request u))

section
variable {mem : ℕ → VramPort.Port topWithHDMI} {gpio : ℕ → Gpio}
  {undefined : ℕ → BitVec topWithHDMI.vramPixelBits} {request : ℕ → DmemRequest}
  {before : ℕ → ℕ} {input : ℕ → HdmiPicture.PixelClock}

theorem Interleaved.requests_eq (h : Interleaved before undefined request input) (t : ℕ) :
    HdmiPicture.requests input t =
      (List.range (before t)).map fun u => targetRequest vramRange (request u) := by
  induction t with
  | zero => rw [h.first]; rfl
  | succ t ih =>
    obtain ⟨d, hd⟩ := Nat.exists_eq_add_of_le (h.mono t)
    rw [HdmiPicture.requests, ih, h.core_eq, hd, Nat.add_sub_cancel_left, List.range_add,
      List.map_append, List.range'_eq_map_range, List.map_map, List.map_map, List.map_map]
    rfl

theorem Runs.vram_eq (h : Runs mem gpio undefined request) (u : ℕ) :
    ((List.range u).map fun u => targetRequest vramRange (request u)).foldl VramPort.store
      (mem 0).vram = (mem u).vram := by
  induction u with
  | zero => rfl
  | succ u ih =>
    rw [List.range_succ, List.map_append, List.foldl_append, ih, h.mem_succ]
    rfl

/-- What a pixel clock finds is what the memory holds on the clock of the core then. -/
theorem Interleaved.stored_eq (hi : Interleaved before undefined request input)
    (h : Runs mem gpio undefined request) (t : ℕ) :
    HdmiPicture.stored (mem 0).vram input t = (mem (before (t + 1))).vram := by
  rw [HdmiPicture.stored, hi.requests_eq, h.vram_eq]

/-- From the first value of the pins on a monitor shows no colour but that of the stripe in
the column before and black, however the clocks are interleaved. A pixel that is read
between two rounds shows the box where it is, or its stripe. -/
theorem box_on_monitor (h : Runs mem gpio undefined request)
    (hi : Interleaved before undefined request input) (hoff : (gpio 0).out = 0) {polls k n x y : ℕ}
    {q : Firmware (Option Main)} (hx : x + 2 < 1280) (hy : y < 720)
    (hcomes : Comes (traffic mem request) (main polls k) 0 q
      (before (HdmiPicture.readClock topWithHDMI n x y + 2))) :
    let u := before (HdmiPicture.readClock topWithHDMI n x y + 2)
    let pixel := HdmiPicture.framePixels (mem 0).vram input n (x + 1) y
    let colour := bgr233ToBgr888 ((stripe (x / 16)).setWidth 8)
    ((gpio u).out ≠ 0 → pixel = colour ∨ pixel = 0) ∧
    ∀ s, q = .done (some s) → 0 < k → pixel =
      if (bounce 72 k ≤ x / 16 ∧ x / 16 < bounce 72 k + 8) ∧
        bounce 37 k ≤ y / 16 ∧ y / 16 < bounce 37 k + 8 then 0 else colour := by
  intro u pixel colour
  have hcolumn : x / 16 < videoWidth := by
    have hwidth : videoWidth = 80 := rfl
    omega
  have hrow : y / 16 < videoHeight := by
    have hheight : videoHeight = 45 := rfl
    omega
  have hpixel : pixel = bgr233ToBgr888 ((mem u).vram (y / 16 * videoWidth + x / 16)) := by
    have hinner : ¬ x + 1 + 1 = topWithHDMI.videoParams.pixelsH := by
      have hpixels : topWithHDMI.videoParams.pixelsH = 1280 := rfl
      omega
    have hstored := hi.stored_eq h (HdmiPicture.readClock topWithHDMI n x y + 1)
    show HdmiPicture.outputPixel _ _ _ _ _ = _
    rw [HdmiPicture.outputPixel, if_neg hinner, VideoPixels.late, hstored]
    rfl
  have hblack : bgr233ToBgr888 0 = 0 := by decide
  obtain ⟨hstriped, hdone⟩ := main_comes h hoff hcomes
  rw [hpixel]
  refine ⟨fun hon => ?_, fun s hs hk => ?_⟩
  · rcases hstriped.cell hon hcolumn hrow with hstripe | hzero
    · exact Or.inl (by rw [hstripe])
    · rw [hzero]
      exact Or.inr hblack
  · rw [(hdone s hs).1 _ (cell_lt hcolumn hrow), screen_box hk hcolumn]
    split_ifs
    · exact hblack
    · rfl

end

/-- The core has made the start and one round before the first pixel clock. -/
theorem box_on_monitor_once : ∃ mem gpio request before input s,
    Runs mem gpio (fun _ => 0) request ∧ Interleaved before (fun _ => 0) request input ∧
    Comes (traffic mem request) (main 1 1) 0 (.done (some s))
      (before (HdmiPicture.readClock topWithHDMI 0 16 16 + 2)) ∧
    HdmiPicture.framePixels (mem 0).vram input 0 (16 + 1) 16 =
      if (bounce 72 1 ≤ 16 / 16 ∧ 16 / 16 < bounce 72 1 + 8) ∧
        bounce 37 1 ≤ 16 / 16 ∧ 16 / 16 < bounce 37 1 + 8 then 0
      else bgr233ToBgr888 ((stripe (16 / 16)).setWidth 8) := by
  obtain ⟨mem, gpio, request, u, s, h, hoff, hcomes⟩ := performed_once
  let before := fun t => if t = 0 then 0 else u
  let input : ℕ → HdmiPicture.PixelClock := fun t =>
    ⟨(List.range' (before t) (before (t + 1) - before t)).map
      fun u => (0, targetRequest vramRange (request u)), decide (t = 0), 0⟩
  have hmono : ∀ t, before t ≤ before (t + 1) := by
    intro t
    simp only [before, if_neg (Nat.succ_ne_zero t)]
    split_ifs
    · exact Nat.zero_le u
    · exact Nat.le_refl u
  have hi : Interleaved before (fun _ => 0) request input := ⟨rfl, hmono, fun _ => rfl⟩
  exact ⟨mem, gpio, request, before, input, s, h, hi, hcomes,
    (box_on_monitor h hi hoff (by decide) (by decide) hcomes).2 s rfl (by decide)⟩

end SeccampRiscvCpu.BoxBootrom
