import CellBag.Library.BitString
import CellBag.Library.Base64
import CellBag.Library.CodeTree
import CellBag.Library.Kraft
import CellBag.Library.Entropy
import CellBag.Library.OptionList
import CellBag.Library.TopologicalOrder
import CellBag.Library.Evaluation
import CellBag.Library.LongestFactors
import CellBag.Library.Occurrences
import CellBag.Library.CommonPrefix
import CellBag.Library.Recurrence
import CellBag.Library.Layout
import CellBag.Library.OrderedSet
import CellBag.Library.UnionFind
import CellBag.Library.WhileLoop
import CellBag.Library.Queue
import CellBag.Library.Tabulate
import CellBag.Library.Apportionment
import CellBag.Model.Utils
import CellBag.Model.UtilsLocal
import CellBag.Model.Tables
import CellBag.Model.Huffman
import CellBag.Model.EncodeArray
import CellBag.Model.RANS
import CellBag.Model.Cells
import CellBag.Model.CellSet
import CellBag.Model.SuffAut
import CellBag.Model.Dictionary
import CellBag.Model.Serializer
import CellBag.Model.Deserializer
import CellBag.Model.Compressor
import CellBag.Proof.Utils
import CellBag.Proof.Vectors
import CellBag.Proof.Packing
import CellBag.Proof.DSU
import CellBag.Proof.MinBitStr
import CellBag.Proof.CntOccurrences
import CellBag.Proof.HuffmanTree
import CellBag.Proof.HuffmanCodec
import CellBag.Proof.HuffmanOptimal
import CellBag.Proof.HuffmanEntropy
import CellBag.Proof.CodeLengths
import CellBag.Proof.ByteCoder
import CellBag.Proof.ByteStream
import CellBag.Proof.EncodeArray
import CellBag.Proof.RANS
import CellBag.Proof.RANSLength
import CellBag.Proof.NormalizeFreq
import CellBag.Proof.RANSDecoder
import CellBag.Proof.CellData
import CellBag.Proof.Flattening
import CellBag.Proof.Rebuild
import CellBag.Proof.Merkle
import CellBag.Proof.BagRebuild
import CellBag.Proof.SuffAut
import CellBag.Proof.Transitions
import CellBag.Proof.Turns
import CellBag.Proof.Substrings
import CellBag.Proof.Matches
import CellBag.Proof.Dictionary
import CellBag.Proof.DictionaryCounts
import CellBag.Proof.Selection
import CellBag.Proof.DictionaryChecks
import CellBag.Proof.Coders
import CellBag.Proof.Fields
import CellBag.Proof.FieldSizes
import CellBag.Proof.Parsing
import CellBag.Proof.Tokens
import CellBag.Proof.TokenReader
import CellBag.Proof.Lossless
import CellBag.Proof.ReaderSafety
import CellBag.Proof.ReaderTermination
import CellBag.Proof.Greedy
import CellBag.Proof.Ordering
import CellBag.Proof.CellSet
import CellBag.Proof.CellOrder
import CellBag.Proof.SerializedBits
import CellBag.Proof.ParseCost
import CellBag.Proof.Overflow
import CellBag.Proof.TopSort
import CellBag.Proof.AcceptedBag
import CellBag.Proof.RoundTrip
import CellBag.Proof.Addresses
import CellBag.Proof.Compressor
