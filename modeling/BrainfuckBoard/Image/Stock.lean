import BrainfuckBoard.Circuit.Ram
import BrainfuckBoard.Instruction.Word

/- The program that the store holds after a reset. It reads bytes and sends each
   one back less 32, which turns a small letter into a capital one, until a zero
   byte arrives; then it sends a line feed and halts. -/
namespace BrainfuckBoard.Image

open Word in
def stockWords : List Word :=
  [encode .input 0,
   encodeSigned .jumpZero 7,
   encode .sub 11,
   encode .sub 11,
   encode .sub 10,
   encode .output 0,
   encode .input 0,
   encodeSigned .jumpNonzero (-5),
   encode .add 10,
   encode .output 0,
   halt]

/-- The stock program in a store of 32 words; the words after it are halt words. -/
def stock : Vector Word 32 := Ram.image 32 stockWords

end BrainfuckBoard.Image
