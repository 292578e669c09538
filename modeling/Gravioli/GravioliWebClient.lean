import Gravioli.PlayerProvider

set_option autoImplicit false

/-! # The web client of the repository

`gravioliWebClient.cpp` answers from constants: two players with fixed keys. `gravioliLib` is a JSON
library that knows the texts of these answers and rejects every other text. -/

namespace Gravioli

namespace GravioliWebClient

def players : String := "\x7b \"IDs\": [0, 1] \x7d"

def player0 : String := "\x7b \"key\": [ 0,  1,  2,  3, 4,  5,  6,  7, 8,  9, 10, 11, 12, 13, 14, 15] \x7d"

def player1 : String := "\x7b \"key\": [ 1,  1,  2,  3, 4,  5,  6,  7, 8,  9, 10, 11, 12, 13, 14, 15] \x7d"

/-- `get`: the three known URLs, and 404 for every other one. -/
def get (url : String) : Option Response :=
  if url = "players" then some ⟨players, 200⟩
  else if url = "player/0" then some ⟨player0, 200⟩
  else if url = "player/1" then some ⟨player1, 200⟩
  else some ⟨"", 404⟩

theorem isSome_get (url : String) : (get url).isSome := by
  unfold get
  split
  · rfl
  · split
    · rfl
    · split <;> rfl

end GravioliWebClient

open Json in
/-- The parser on the texts of `GravioliWebClient`. -/
def gravioliLib : JsonLib where
  parse text :=
    let key0 := (List.range keyBlocksize).map (fun i => number_unsigned (BitVec.ofNat 64 i))
    if text = GravioliWebClient.players then
      .ok (object [("IDs", array [number_unsigned 0, number_unsigned 1])])
    else if text = GravioliWebClient.player0 then .ok (object [("key", array key0)])
    else if text = GravioliWebClient.player1 then
      .ok (object [("key", array (number_unsigned 1 :: key0.tail))])
    else .error "parse error - unexpected end of input"
  castOutOfRange _ := BitVec.intMin 32

end Gravioli
