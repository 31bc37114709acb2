/-!
# Letter case

Upper and lower case of single characters, for all of Unicode. A run lists letters that are `step`
code points apart and have their counterpart at the same distance `delta`.
-/

namespace Firmware
namespace Text

/-- Letters at equal steps whose counterpart of the other case is `delta` away. -/
structure CaseRun where
  first : Nat
  last : Nat
  step : Nat
  delta : Int

def single (letters : List (Nat × Int)) : List CaseRun := letters.map fun l => ⟨l.1, l.1, 1, l.2⟩

/-- The runs of lower case letters outside ASCII: those where every letter stands behind its
counterpart, then rows of letters, then letters alone. -/
def upperRuns : List CaseRun :=
  [(0x101, 0x12F), (0x133, 0x137), (0x13A, 0x148), (0x14B, 0x177), (0x17A, 0x17E), (0x183, 0x185), (0x188, 0x188),
   (0x18C, 0x18C), (0x192, 0x192), (0x199, 0x199), (0x1A1, 0x1A5), (0x1A8, 0x1A8), (0x1AD, 0x1AD), (0x1B0, 0x1B0),
   (0x1B4, 0x1B6), (0x1B9, 0x1B9), (0x1BD, 0x1BD), (0x1C5, 0x1C5), (0x1C8, 0x1C8), (0x1CB, 0x1CB), (0x1CE, 0x1DC),
   (0x1DF, 0x1EF), (0x1F2, 0x1F2), (0x1F5, 0x1F5), (0x1F9, 0x21F), (0x223, 0x233), (0x23C, 0x23C), (0x242, 0x242),
   (0x247, 0x24F), (0x371, 0x373), (0x377, 0x377), (0x3D9, 0x3EF), (0x3F8, 0x3F8), (0x3FB, 0x3FB), (0x461, 0x481),
   (0x48B, 0x4BF), (0x4C2, 0x4CE), (0x4D1, 0x52F), (0x1C8A, 0x1C8A), (0x1E01, 0x1E95), (0x1EA1, 0x1EFF),
   (0x2184, 0x2184), (0x2C61, 0x2C61), (0x2C68, 0x2C6C), (0x2C73, 0x2C73), (0x2C76, 0x2C76), (0x2C81, 0x2CE3),
   (0x2CEC, 0x2CEE), (0x2CF3, 0x2CF3), (0xA641, 0xA66D), (0xA681, 0xA69B), (0xA723, 0xA72F), (0xA733, 0xA76F),
   (0xA77A, 0xA77C), (0xA77F, 0xA787), (0xA78C, 0xA78C), (0xA791, 0xA793), (0xA797, 0xA7A9), (0xA7B5, 0xA7C3),
   (0xA7C8, 0xA7CA), (0xA7CD, 0xA7DB), (0xA7F6, 0xA7F6)].map (fun r => ⟨r.1, r.2, 2, -1⟩) ++
  [⟨0xE0, 0xF6, 1, -32⟩, ⟨0xF8, 0xFE, 1, -32⟩, ⟨0x23F, 0x240, 1, 10815⟩, ⟨0x256, 0x257, 1, -205⟩,
   ⟨0x28A, 0x28B, 1, -217⟩, ⟨0x37B, 0x37D, 1, 130⟩, ⟨0x3AD, 0x3AF, 1, -37⟩, ⟨0x3B1, 0x3C1, 1, -32⟩,
   ⟨0x3C3, 0x3CB, 1, -32⟩, ⟨0x3CD, 0x3CE, 1, -63⟩, ⟨0x430, 0x44F, 1, -32⟩, ⟨0x450, 0x45F, 1, -80⟩,
   ⟨0x561, 0x586, 1, -48⟩, ⟨0x10D0, 0x10FA, 1, 3008⟩, ⟨0x10FD, 0x10FF, 1, 3008⟩, ⟨0x13F8, 0x13FD, 1, -8⟩,
   ⟨0x1C83, 0x1C84, 1, -6242⟩, ⟨0x1F00, 0x1F07, 1, 8⟩, ⟨0x1F10, 0x1F15, 1, 8⟩, ⟨0x1F20, 0x1F27, 1, 8⟩,
   ⟨0x1F30, 0x1F37, 1, 8⟩, ⟨0x1F40, 0x1F45, 1, 8⟩, ⟨0x1F51, 0x1F57, 2, 8⟩, ⟨0x1F60, 0x1F67, 1, 8⟩,
   ⟨0x1F70, 0x1F71, 1, 74⟩, ⟨0x1F72, 0x1F75, 1, 86⟩, ⟨0x1F76, 0x1F77, 1, 100⟩, ⟨0x1F78, 0x1F79, 1, 128⟩,
   ⟨0x1F7A, 0x1F7B, 1, 112⟩, ⟨0x1F7C, 0x1F7D, 1, 126⟩, ⟨0x1F80, 0x1F87, 1, 8⟩, ⟨0x1F90, 0x1F97, 1, 8⟩,
   ⟨0x1FA0, 0x1FA7, 1, 8⟩, ⟨0x1FB0, 0x1FB1, 1, 8⟩, ⟨0x1FD0, 0x1FD1, 1, 8⟩, ⟨0x1FE0, 0x1FE1, 1, 8⟩,
   ⟨0x2170, 0x217F, 1, -16⟩, ⟨0x24D0, 0x24E9, 1, -26⟩, ⟨0x2C30, 0x2C5F, 1, -48⟩, ⟨0x2D00, 0x2D25, 1, -7264⟩,
   ⟨0xAB70, 0xABBF, 1, -38864⟩, ⟨0xFF41, 0xFF5A, 1, -32⟩, ⟨0x10428, 0x1044F, 1, -40⟩, ⟨0x104D8, 0x104FB, 1, -40⟩,
   ⟨0x10597, 0x105A1, 1, -39⟩, ⟨0x105A3, 0x105B1, 1, -39⟩, ⟨0x105B3, 0x105B9, 1, -39⟩, ⟨0x105BB, 0x105BC, 1, -39⟩,
   ⟨0x10CC0, 0x10CF2, 1, -64⟩, ⟨0x10D70, 0x10D85, 1, -32⟩, ⟨0x118C0, 0x118DF, 1, -32⟩, ⟨0x16E60, 0x16E7F, 1, -32⟩,
   ⟨0x16EBB, 0x16ED3, 1, -27⟩, ⟨0x1E922, 0x1E943, 1, -34⟩] ++
  single
    [(0xB5, 743), (0xFF, 121), (0x131, -232), (0x17F, -300), (0x180, 195), (0x195, 97), (0x19A, 163), (0x19B, 42561),
     (0x19E, 130), (0x1BF, 56), (0x1C6, -2), (0x1C9, -2), (0x1CC, -2), (0x1DD, -79), (0x1F3, -2), (0x250, 10783),
     (0x251, 10780), (0x252, 10782), (0x253, -210), (0x254, -206), (0x259, -202), (0x25B, -203), (0x25C, 42319),
     (0x260, -205), (0x261, 42315), (0x263, -207), (0x264, 42343), (0x265, 42280), (0x266, 42308), (0x268, -209),
     (0x269, -211), (0x26A, 42308), (0x26B, 10743), (0x26C, 42305), (0x26F, -211), (0x271, 10749), (0x272, -213),
     (0x275, -214), (0x27D, 10727), (0x280, -218), (0x282, 42307), (0x283, -218), (0x287, 42282), (0x288, -218),
     (0x289, -69), (0x28C, -71), (0x292, -219), (0x29D, 42261), (0x29E, 42258), (0x345, 84), (0x3AC, -38),
     (0x3C2, -31), (0x3CC, -64), (0x3D0, -62), (0x3D1, -57), (0x3D5, -47), (0x3D6, -54), (0x3D7, -8), (0x3F0, -86),
     (0x3F1, -80), (0x3F2, 7), (0x3F3, -116), (0x3F5, -96), (0x4CF, -15), (0x1C80, -6254), (0x1C81, -6253),
     (0x1C82, -6244), (0x1C85, -6243), (0x1C86, -6236), (0x1C87, -6181), (0x1C88, 35266), (0x1D79, 35332),
     (0x1D7D, 3814), (0x1D8E, 35384), (0x1E9B, -59), (0x1FB3, 9), (0x1FBE, -7205), (0x1FC3, 9), (0x1FE5, 7),
     (0x1FF3, 9), (0x214E, -28), (0x2C65, -10795), (0x2C66, -10792), (0x2D27, -7264), (0x2D2D, -7264), (0xA794, 48),
     (0xAB53, -928)]

/-- The run from the counterparts back to the letters. -/
def CaseRun.reversed (r : CaseRun) : CaseRun :=
  ⟨(r.first + r.delta).toNat, (r.last + r.delta).toNat, r.step, -r.delta⟩

/-- The runs of upper case letters outside ASCII. Letters go back the way they came, but for titles
and for letters that no lower case letter has for its counterpart. -/
def lowerRuns : List CaseRun :=
  single
    [(0x130, -199), (0x1C4, 2), (0x1C5, 1), (0x1C7, 2), (0x1C8, 1), (0x1CA, 2), (0x1CB, 1), (0x1F1, 2), (0x1F2, 1),
     (0x3F4, -60), (0x1E9E, -7615), (0x2126, -7517), (0x212A, -8383), (0x212B, -8262)] ++
  upperRuns.map CaseRun.reversed

def counterpart (runs : List CaseRun) (c : Char) : Char :=
  let n := c.toNat
  match runs.find? fun r => r.first ≤ n && n ≤ r.last && (n - r.first) % r.step == 0 with
  | some r => Char.ofNat ((n : Int) + r.delta).toNat
  | none => c

def upper (c : Char) : Char := if c.toNat < 0x80 then c.toUpper else counterpart upperRuns c

def lower (c : Char) : Char := if c.toNat < 0x80 then c.toLower else counterpart lowerRuns c

end Text
end Firmware
