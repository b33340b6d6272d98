import Sfslite.Crypt.Modalg
import Sfslite.Crypt.MpInt
import Sfslite.Crypt.Rabin
import Sfslite.Lib.Montgomery
import Sfslite.Lib.PrimeTests
import Mathlib.NumberTheory.LucasPrimality
import Mathlib.Data.Int.Bitwise
import Mathlib.Tactic.ReduceModChar

/-!
The prime tests of `random_prime.C`. Big integers are integers; what the random number generator
puts into the limbs of a base is an argument.
-/

namespace Sfslite.Crypt

open Sfslite.Lib

set_option maxRecDepth 20000 in
def smallPrimes : List ℕ :=
  [3, 5, 7, 11, 13, 17, 19, 23, 29, 31, 37, 41, 43, 47, 53, 59, 61, 67, 71, 73, 79, 83, 89, 97, 101,
  103, 107, 109, 113, 127, 131, 137, 139, 149, 151, 157, 163, 167, 173, 179, 181, 191, 193, 197,
  199, 211, 223, 227, 229, 233, 239, 241, 251, 257, 263, 269, 271, 277, 281, 283, 293, 307, 311,
  313, 317, 331, 337, 347, 349, 353, 359, 367, 373, 379, 383, 389, 397, 401, 409, 419, 421, 431,
  433, 439, 443, 449, 457, 461, 463, 467, 479, 487, 491, 499, 503, 509, 521, 523, 541, 547, 557,
  563, 569, 571, 577, 587, 593, 599, 601, 607, 613, 617, 619, 631, 641, 643, 647, 653, 659, 661,
  673, 677, 683, 691, 701, 709, 719, 727, 733, 739, 743, 751, 757, 761, 769, 773, 787, 797, 809,
  811, 821, 823, 827, 829, 839, 853, 857, 859, 863, 877, 881, 883, 887, 907, 911, 919, 929, 937,
  941, 947, 953, 967, 971, 977, 983, 991, 997, 1009, 1013, 1019, 1021, 1031, 1033, 1039, 1049,
  1051, 1061, 1063, 1069, 1087, 1091, 1093, 1097, 1103, 1109, 1117, 1123, 1129, 1151, 1153, 1163,
  1171, 1181, 1187, 1193, 1201, 1213, 1217, 1223, 1229, 1231, 1237, 1249, 1259, 1277, 1279, 1283,
  1289, 1291, 1297, 1301, 1303, 1307, 1319, 1321, 1327, 1361, 1367, 1373, 1381, 1399, 1409, 1423,
  1427, 1429, 1433, 1439, 1447, 1451, 1453, 1459, 1471, 1481, 1483, 1487, 1489, 1493, 1499, 1511,
  1523, 1531, 1543, 1549, 1553, 1559, 1567, 1571, 1579, 1583, 1597, 1601, 1607, 1609, 1613, 1619,
  1621, 1627, 1637, 1657, 1663, 1667, 1669, 1693, 1697, 1699, 1709, 1721, 1723, 1733, 1741, 1747,
  1753, 1759, 1777, 1783, 1787, 1789, 1801, 1811, 1823, 1831, 1847, 1861, 1867, 1871, 1873, 1877,
  1879, 1889, 1901, 1907, 1913, 1931, 1933, 1949, 1951, 1973, 1979, 1987, 1993, 1997, 1999, 2003,
  2011, 2017, 2027, 2029, 2039, 2053, 2063, 2069, 2081, 2083, 2087, 2089, 2099, 2111, 2113, 2129,
  2131, 2137, 2141, 2143, 2153, 2161, 2179, 2203, 2207, 2213, 2221, 2237, 2239, 2243, 2251, 2267,
  2269, 2273, 2281, 2287, 2293, 2297, 2309, 2311, 2333, 2339, 2341, 2347, 2351, 2357, 2371, 2377,
  2381, 2383, 2389, 2393, 2399, 2411, 2417, 2423, 2437, 2441, 2447, 2459, 2467, 2473, 2477, 2503,
  2521, 2531, 2539, 2543, 2549, 2551, 2557, 2579, 2591, 2593, 2609, 2617, 2621, 2633, 2647, 2657,
  2659, 2663, 2671, 2677, 2683, 2687, 2689, 2693, 2699, 2707, 2711, 2713, 2719, 2729, 2731, 2741,
  2749, 2753, 2767, 2777, 2789, 2791, 2797, 2801, 2803, 2819, 2833, 2837, 2843, 2851, 2857, 2861,
  2879, 2887, 2897, 2903, 2909, 2917, 2927, 2939, 2953, 2957, 2963, 2969, 2971, 2999, 3001, 3011,
  3019, 3023, 3037, 3041, 3049, 3061, 3067, 3079, 3083, 3089, 3109, 3119, 3121, 3137, 3163, 3167,
  3169, 3181, 3187, 3191, 3203, 3209, 3217, 3221, 3229, 3251, 3253, 3257, 3259, 3271, 3299, 3301,
  3307, 3313, 3319, 3323, 3329, 3331, 3343, 3347, 3359, 3361, 3371, 3373, 3389, 3391, 3407, 3413,
  3433, 3449, 3457, 3461, 3463, 3467, 3469, 3491, 3499, 3511, 3517, 3527, 3529, 3533, 3539, 3541,
  3547, 3557, 3559, 3571, 3581, 3583, 3593, 3607, 3613, 3617, 3623, 3631, 3637, 3643, 3659, 3671,
  3673, 3677, 3691, 3697, 3701, 3709, 3719, 3727, 3733, 3739, 3761, 3767, 3769, 3779, 3793, 3797,
  3803, 3821, 3823, 3833, 3847, 3851, 3853, 3863, 3877, 3881, 3889, 3907, 3911, 3917, 3919, 3923,
  3929, 3931, 3943, 3947, 3967, 3989, 4001, 4003, 4007, 4013, 4019, 4021, 4027, 4049, 4051, 4057,
  4073, 4079, 4091, 4093, 4099, 4111, 4127, 4129, 4133, 4139, 4153, 4157, 4159, 4177, 4201, 4211,
  4217, 4219, 4229, 4231, 4241, 4243, 4253, 4259, 4261, 4271, 4273, 4283, 4289, 4297, 4327, 4337,
  4339, 4349, 4357, 4363, 4373, 4391, 4397, 4409, 4421, 4423, 4441, 4447, 4451, 4457, 4463, 4481,
  4483, 4493, 4507, 4513, 4517, 4519, 4523, 4547, 4549, 4561, 4567, 4583, 4591, 4597, 4603, 4621,
  4637, 4639, 4643, 4649, 4651, 4657, 4663, 4673, 4679, 4691, 4703, 4721, 4723, 4729, 4733, 4751,
  4759, 4783, 4787, 4789, 4793, 4799, 4801, 4813, 4817, 4831, 4861, 4871, 4877, 4889, 4903, 4909,
  4919, 4931, 4933, 4937, 4943, 4951, 4957, 4967, 4969, 4973, 4987, 4993, 4999, 5003, 5009, 5011,
  5021, 5023, 5039, 5051, 5059, 5077, 5081, 5087, 5099, 5101, 5107, 5113, 5119, 5147, 5153, 5167,
  5171, 5179, 5189, 5197, 5209, 5227, 5231, 5233, 5237, 5261, 5273, 5279, 5281, 5297, 5303, 5309,
  5323, 5333, 5347, 5351, 5381, 5387, 5393, 5399, 5407, 5413, 5417, 5419, 5431, 5437, 5441, 5443,
  5449, 5471, 5477, 5479, 5483, 5501, 5503, 5507, 5519, 5521, 5527, 5531, 5557, 5563, 5569, 5573,
  5581, 5591, 5623, 5639, 5641, 5647, 5651, 5653, 5657, 5659, 5669, 5683, 5689, 5693, 5701, 5711,
  5717, 5737, 5741, 5743, 5749, 5779, 5783, 5791, 5801, 5807, 5813, 5821, 5827, 5839, 5843, 5849,
  5851, 5857, 5861, 5867, 5869, 5879, 5881, 5897, 5903, 5923, 5927, 5939, 5953, 5981, 5987, 6007,
  6011, 6029, 6037, 6043, 6047, 6053, 6067, 6073, 6079, 6089, 6091, 6101, 6113, 6121, 6131, 6133,
  6143, 6151, 6163, 6173, 6197, 6199, 6203, 6211, 6217, 6221, 6229, 6247, 6257, 6263, 6269, 6271,
  6277, 6287, 6299, 6301, 6311, 6317, 6323, 6329, 6337, 6343, 6353, 6359, 6361, 6367, 6373, 6379,
  6389, 6397, 6421, 6427, 6449, 6451, 6469, 6473, 6481, 6491, 6521, 6529, 6547, 6551, 6553, 6563,
  6569, 6571, 6577, 6581, 6599, 6607, 6619, 6637, 6653, 6659, 6661, 6673, 6679, 6689, 6691, 6701,
  6703, 6709, 6719, 6733, 6737, 6761, 6763, 6779, 6781, 6791, 6793, 6803, 6823, 6827, 6829, 6833,
  6841, 6857, 6863, 6869, 6871, 6883, 6899, 6907, 6911, 6917, 6947, 6949, 6959, 6961, 6967, 6971,
  6977, 6983, 6991, 6997, 7001, 7013, 7019, 7027, 7039, 7043, 7057, 7069, 7079, 7103, 7109, 7121,
  7127, 7129, 7151, 7159, 7177, 7187, 7193, 7207, 7211, 7213, 7219, 7229, 7237, 7243, 7247, 7253,
  7283, 7297, 7307, 7309, 7321, 7331, 7333, 7349, 7351, 7369, 7393, 7411, 7417, 7433, 7451, 7457,
  7459, 7477, 7481, 7487, 7489, 7499, 7507, 7517, 7523, 7529, 7537, 7541, 7547, 7549, 7559, 7561,
  7573, 7577, 7583, 7589, 7591, 7603, 7607, 7621, 7639, 7643, 7649, 7669, 7673, 7681, 7687, 7691,
  7699, 7703, 7717, 7723, 7727, 7741, 7753, 7757, 7759, 7789, 7793, 7817, 7823, 7829, 7841, 7853,
  7867, 7873, 7877, 7879, 7883, 7901, 7907, 7919, 7927, 7933, 7937, 7949, 7951, 7963, 7993, 8009,
  8011, 8017, 8039, 8053, 8059, 8069, 8081, 8087, 8089, 8093, 8101, 8111, 8117, 8123, 8147, 8161,
  8167, 8171, 8179, 8191, 8209, 8219, 8221, 8231, 8233, 8237, 8243, 8263, 8269, 8273, 8287, 8291,
  8293, 8297, 8311, 8317, 8329, 8353, 8363, 8369, 8377, 8387, 8389, 8419, 8423, 8429, 8431, 8443,
  8447, 8461, 8467, 8501, 8513, 8521, 8527, 8537, 8539, 8543, 8563, 8573, 8581, 8597, 8599, 8609,
  8623, 8627, 8629, 8641, 8647, 8663, 8669, 8677, 8681, 8689, 8693, 8699, 8707, 8713, 8719, 8731,
  8737, 8741, 8747, 8753, 8761, 8779, 8783, 8803, 8807, 8819, 8821, 8831, 8837, 8839, 8849, 8861,
  8863, 8867, 8887, 8893, 8923, 8929, 8933, 8941, 8951, 8963, 8969, 8971, 8999, 9001, 9007, 9011,
  9013, 9029, 9041, 9043, 9049, 9059, 9067, 9091, 9103, 9109, 9127, 9133, 9137, 9151, 9157, 9161,
  9173, 9181, 9187, 9199, 9203, 9209, 9221, 9227, 9239, 9241, 9257, 9277, 9281, 9283, 9293, 9311,
  9319, 9323, 9337, 9341, 9343, 9349, 9371, 9377, 9391, 9397, 9403, 9413, 9419, 9421, 9431, 9433,
  9437, 9439, 9461, 9463, 9467, 9473, 9479, 9491, 9497, 9511, 9521, 9533, 9539, 9547, 9551, 9587,
  9601, 9613, 9619, 9623, 9629, 9631, 9643, 9649, 9661, 9677, 9679, 9689, 9697, 9719, 9721, 9733,
  9739, 9743, 9749, 9767, 9769, 9781, 9787, 9791, 9803, 9811, 9817, 9829, 9833, 9839, 9851, 9857,
  9859, 9871, 9883, 9887, 9901, 9907, 9923, 9929, 9931, 9941, 9949, 9967, 9973, 10007, 10009,
  10037, 10039, 10061, 10067, 10069, 10079, 10091, 10093, 10099, 10103, 10111, 10133, 10139, 10141,
  10151, 10159, 10163, 10169, 10177, 10181, 10193, 10211, 10223, 10243, 10247, 10253, 10259, 10267,
  10271, 10273, 10289, 10301, 10303, 10313, 10321, 10331, 10333, 10337, 10343, 10357, 10369, 10391,
  10399, 10427, 10429, 10433, 10453, 10457, 10459, 10463, 10477, 10487, 10499, 10501, 10513, 10529,
  10531, 10559, 10567, 10589, 10597, 10601, 10607, 10613, 10627, 10631, 10639, 10651, 10657, 10663,
  10667, 10687, 10691, 10709, 10711, 10723, 10729, 10733, 10739, 10753, 10771, 10781, 10789, 10799,
  10831, 10837, 10847, 10853, 10859, 10861, 10867, 10883, 10889, 10891, 10903, 10909, 10937, 10939,
  10949, 10957, 10973, 10979, 10987, 10993, 11003, 11027, 11047, 11057, 11059, 11069, 11071, 11083,
  11087, 11093, 11113, 11117, 11119, 11131, 11149, 11159, 11161, 11171, 11173, 11177, 11197, 11213,
  11239, 11243, 11251, 11257, 11261, 11273, 11279, 11287, 11299, 11311, 11317, 11321, 11329, 11351,
  11353, 11369, 11383, 11393, 11399, 11411, 11423, 11437, 11443, 11447, 11467, 11471, 11483, 11489,
  11491, 11497, 11503, 11519, 11527, 11549, 11551, 11579, 11587, 11593, 11597, 11617, 11621, 11633,
  11657, 11677, 11681, 11689, 11699, 11701, 11717, 11719, 11731, 11743, 11777, 11779, 11783, 11789,
  11801, 11807, 11813, 11821, 11827, 11831, 11833, 11839, 11863, 11867, 11887, 11897, 11903, 11909,
  11923, 11927, 11933, 11939, 11941, 11953, 11959, 11969, 11971, 11981, 11987, 12007, 12011, 12037,
  12041, 12043, 12049, 12071, 12073, 12097, 12101, 12107, 12109, 12113, 12119, 12143, 12149, 12157,
  12161, 12163, 12197, 12203, 12211, 12227, 12239, 12241, 12251, 12253, 12263, 12269, 12277, 12281,
  12289, 12301, 12323, 12329, 12343, 12347, 12373, 12377, 12379, 12391, 12401, 12409, 12413, 12421,
  12433, 12437, 12451, 12457, 12473, 12479, 12487, 12491, 12497, 12503, 12511, 12517, 12527, 12539,
  12541, 12547, 12553, 12569, 12577, 12583, 12589, 12601, 12611, 12613, 12619, 12637, 12641, 12647,
  12653, 12659, 12671, 12689, 12697, 12703, 12713, 12721, 12739, 12743, 12757, 12763, 12781, 12791,
  12799, 12809, 12821, 12823, 12829, 12841, 12853, 12889, 12893, 12899, 12907, 12911, 12917, 12919,
  12923, 12941, 12953, 12959, 12967, 12973, 12979, 12983, 13001, 13003, 13007, 13009, 13033, 13037,
  13043, 13049, 13063, 13093, 13099, 13103, 13109, 13121, 13127, 13147, 13151, 13159, 13163, 13171,
  13177, 13183, 13187, 13217, 13219, 13229, 13241, 13249, 13259, 13267, 13291, 13297, 13309, 13313,
  13327, 13331, 13337, 13339, 13367, 13381, 13397, 13399, 13411, 13417, 13421, 13441, 13451, 13457,
  13463, 13469, 13477, 13487, 13499, 13513, 13523, 13537, 13553, 13567, 13577, 13591, 13597, 13613,
  13619, 13627, 13633, 13649, 13669, 13679, 13681, 13687, 13691, 13693, 13697, 13709, 13711, 13721,
  13723, 13729, 13751, 13757, 13759, 13763, 13781, 13789, 13799, 13807, 13829, 13831, 13841, 13859,
  13873, 13877, 13879, 13883, 13901, 13903, 13907, 13913, 13921, 13931, 13933, 13963, 13967, 13997,
  13999, 14009, 14011, 14029, 14033, 14051, 14057, 14071, 14081, 14083, 14087, 14107, 14143, 14149,
  14153, 14159, 14173, 14177, 14197, 14207, 14221, 14243, 14249, 14251, 14281, 14293, 14303, 14321,
  14323, 14327, 14341, 14347, 14369, 14387, 14389, 14401, 14407, 14411, 14419, 14423, 14431, 14437,
  14447, 14449, 14461, 14479, 14489, 14503, 14519, 14533, 14537, 14543, 14549, 14551, 14557, 14561,
  14563, 14591, 14593, 14621, 14627, 14629, 14633, 14639, 14653, 14657, 14669, 14683, 14699, 14713,
  14717, 14723, 14731, 14737, 14741, 14747, 14753, 14759, 14767, 14771, 14779, 14783, 14797, 14813,
  14821, 14827, 14831, 14843, 14851, 14867, 14869, 14879, 14887, 14891, 14897, 14923, 14929, 14939,
  14947, 14951, 14957, 14969, 14983, 15013, 15017, 15031, 15053, 15061, 15073, 15077, 15083, 15091,
  15101, 15107, 15121, 15131, 15137, 15139, 15149, 15161, 15173, 15187, 15193, 15199, 15217, 15227,
  15233, 15241, 15259, 15263, 15269, 15271, 15277, 15287, 15289, 15299, 15307, 15313, 15319, 15329,
  15331, 15349, 15359, 15361, 15373, 15377, 15383, 15391, 15401, 15413, 15427, 15439, 15443, 15451,
  15461, 15467, 15473, 15493, 15497, 15511, 15527, 15541, 15551, 15559, 15569, 15581, 15583, 15601,
  15607, 15619, 15629, 15641, 15643, 15647, 15649, 15661, 15667, 15671, 15679, 15683, 15727, 15731,
  15733, 15737, 15739, 15749, 15761, 15767, 15773, 15787, 15791, 15797, 15803, 15809, 15817, 15823,
  15859, 15877, 15881, 15887, 15889, 15901, 15907, 15913, 15919, 15923, 15937, 15959, 15971, 15973,
  15991, 16001, 16007, 16033, 16057, 16061, 16063, 16067, 16069, 16073, 16087, 16091, 16097, 16103,
  16111, 16127, 16139, 16141, 16183, 16187, 16189, 16193, 16217, 16223, 16229, 16231, 16249, 16253,
  16267, 16273, 16301, 16319, 16333, 16339, 16349, 16361, 16363, 16369, 16381, 16411, 16417, 16421,
  16427, 16433, 16447, 16451, 16453, 16477, 16481, 16487, 16493, 16519, 16529, 16547, 16553, 16561,
  16567, 16573, 16603, 16607, 16619, 16631, 16633, 16649, 16651, 16657, 16661, 16673, 16691, 16693,
  16699, 16703, 16729, 16741, 16747, 16759, 16763, 16787, 16811, 16823, 16829, 16831, 16843, 16871,
  16879, 16883, 16889, 16901, 16903, 16921, 16927, 16931, 16937, 16943, 16963, 16979, 16981, 16987,
  16993, 17011, 17021, 17027, 17029, 17033, 17041, 17047, 17053, 17077, 17093, 17099, 17107, 17117,
  17123, 17137, 17159, 17167, 17183, 17189, 17191, 17203, 17207, 17209, 17231, 17239, 17257, 17291,
  17293, 17299, 17317, 17321, 17327, 17333, 17341, 17351, 17359, 17377, 17383, 17387, 17389, 17393,
  17401, 17417, 17419, 17431, 17443, 17449, 17467, 17471, 17477, 17483, 17489, 17491, 17497, 17509,
  17519, 17539, 17551, 17569, 17573, 17579, 17581, 17597, 17599, 17609, 17623, 17627, 17657, 17659,
  17669, 17681, 17683, 17707, 17713, 17729, 17737, 17747, 17749, 17761, 17783, 17789, 17791, 17807,
  17827, 17837, 17839, 17851, 17863, 17881, 17891, 17903, 17909, 17911, 17921, 17923, 17929, 17939,
  17957, 17959, 17971, 17977, 17981, 17987, 17989, 18013, 18041, 18043, 18047, 18049, 18059, 18061,
  18077, 18089, 18097, 18119, 18121, 18127, 18131, 18133, 18143, 18149, 18169, 18181, 18191, 18199,
  18211, 18217, 18223, 18229, 18233, 18251, 18253, 18257, 18269, 18287, 18289, 18301, 18307, 18311,
  18313, 18329, 18341, 18353, 18367, 18371, 18379, 18397, 18401, 18413, 18427, 18433, 18439, 18443,
  18451, 18457, 18461, 18481, 18493, 18503, 18517, 18521, 18523, 18539, 18541, 18553, 18583, 18587,
  18593, 18617, 18637, 18661, 18671, 18679, 18691, 18701, 18713, 18719, 18731, 18743, 18749, 18757,
  18773, 18787, 18793, 18797, 18803, 18839, 18859, 18869, 18899, 18911, 18913, 18917, 18919, 18947,
  18959, 18973, 18979, 19001, 19009, 19013, 19031, 19037, 19051, 19069]

/-- `_mp_size`. -/
def signedSize (a : ℤ) : ℤ := a.sign * mpSize a

def quickmod (p : ℤ) (d : ℕ) : ℕ := p.natAbs % d

/-- The loop of `fermat2_test`, with `i` bits of `n` left; `none` where `2 * asize` overflows in
`mpz_square`, which is an `int`. -/
def fermat2Loop (n : ℤ) : ℕ → ℤ → Option ℤ
  | 0, t1 => some t1
  | i + 1, t1 =>
    if 2 ^ 31 ≤ 2 * mpSize t1 then none
    else
      let t1 := t1 * t1
      let t1 := if signedSize n < signedSize t1 then t1.tmod n else t1
      let t1 := if n.testBit i then t1 * 2 else t1
      fermat2Loop n i t1

def fermat2Test (n : ℤ) : Option Bool := do
  let t1 ← fermat2Loop n (MpInt.intSteps n.natAbs.size) 1
  let t1 := if n < t1 then t1.tmod n else t1
  some (t1 == 2)

/-- `mpz_scan1 (&m, 0)`. -/
def scan1 (m : ℕ) : ℕ := padicValNat 2 m

/-- The base that the limbs `d` make behind the mask. -/
def baseOf (n : ℕ) (d : List Limb) : ℕ :=
  let nlimbs := mpSize n
  let mask : Limb := ~~~0#64 >>> ((64 - n.size % 64) % 64)
  Words.val ((d.take nlimbs).modifyLast (· &&& mask))

/-- The loop that draws a base; `none` where the draws do not reach its end, and where
`GMP_LIMB_SIZE * nlimbs` overflows. The size of `a` stays `nlimbs`, whatever its limbs are, and
`mpz_cmp` looks at the sizes first: `a <= 1` is false of two limbs that are zero. -/
def drawBase (n : ℕ) : List (List Limb) → Option (ℕ × List (List Limb))
  | [] => none
  | d :: draws =>
    if 2 ^ 31 ≤ 8 * mpSize n then none
    else
      let a := baseOf n d
      if n - 1 ≤ a ∨ (mpSize n ≤ 1 ∧ a ≤ 1) then drawBase n draws else some (a, draws)

/-- The `for` loop of `prime_test`; `false` where it returns. -/
def squareLoop (n : ℕ) : ℕ → ℕ → Bool
  | 0, y => y == n - 1
  | j + 1, y =>
    if y = n - 1 then true
    else
      let y := y * y % n
      if y = 1 then false else squareLoop n j y

/-- `while (iter--)`. -/
def testRounds (n : ℕ) (s : BitVec 32) (r : ℕ) : ℕ → List (List Limb) → Option Bool
  | 0, _ => some true
  | iter + 1, draws => do
      let (a, draws) ← drawBase n draws
      let y := a ^ r % n
      if y ≠ 1 ∧ ¬ squareLoop n (s - 1).toNat y then some false
      else testRounds n s r iter draws

def primeTest (n : ℤ) (iter : ℕ) (draws : List (List Limb)) : Option Bool :=
  if n ≤ 7 then
    if n.sign ≤ 0 then some false
    else some (getui n ≠ 1 ∧ getui n ≠ 4 ∧ getui n ≠ 6)
  else if ¬ n.testBit 0 then some false
  else
    let n1 := n.toNat - 1
    let s := BitVec.ofNat 32 (scan1 n1)
    let r := n1 / 2 ^ s.toNat
    testRounds n.toNat s r iter draws

def srpprimeTest (n : ℤ) (iter : ℕ) (draws : List (List Limb)) : Option Bool :=
  if ¬ n.testBit 0 ∨ (signedSize n ≤ 1 ∧ n < 5) then some false
  else if quickmod n 3 = 0 then some false
  else do
    if ¬ (← fermat2Test n) then some false
    else
      let q := n.tdiv 2
      if smallPrimes.any (fun p => quickmod q p == 0) then some false
      else primeTest q iter draws

variable {n p : ℕ}

theorem mpSize_mono {a b : ℤ} (h : a.natAbs ≤ b.natAbs) : mpSize a ≤ mpSize b := by
  have hsize := Nat.size_le_size h
  unfold mpSize
  exact Nat.div_le_div_right (by omega)

theorem mpSize_mul_two (a : ℤ) : mpSize (a * 2) ≤ mpSize a + 1 := by
  have hsize : (a * 2).natAbs.size ≤ a.natAbs.size + 1 := by
    rw [Nat.size_le, Int.natAbs_mul, pow_succ]
    exact Nat.mul_lt_mul_of_pos_right (Nat.lt_size_self _) (by decide)
  unfold mpSize bitsperlimb
  omega

theorem signedSize_of_nonneg {a : ℤ} (h : 0 ≤ a) : signedSize a = mpSize a := by
  rcases h.eq_or_lt with rfl | hpos
  · rfl
  · rw [signedSize, Int.sign_eq_one_of_pos hpos, one_mul]

theorem fermat2Loop_spec {n X : ℕ} (hn : 0 < n) (hfit : mpSize n + 1 < 2 ^ 30) (i : ℕ) (t1 : ℤ)
    (hpos : 0 ≤ t1) (hsize : mpSize t1 ≤ mpSize n + 1) (hX : ∀ j < i, n.testBit j = X.testBit j)
    (hmod : t1 ≡ 2 ^ (X / 2 ^ i) [ZMOD n]) :
    ∃ t, fermat2Loop n i t1 = some t ∧ 0 ≤ t ∧ t ≡ 2 ^ X [ZMOD n] := by
  induction i generalizing t1 with
  | zero =>
    rw [pow_zero, Nat.div_one] at hmod
    exact ⟨t1, rfl, hpos, hmod⟩
  | succ i ih =>
    have hshift := Montgomery.shift_succ X i
    have hsq : t1 * t1 ≡ 2 ^ (2 * (X / 2 ^ (i + 1))) [ZMOD n] := by
      rw [Nat.two_mul, pow_add]
      exact hmod.mul hmod
    obtain ⟨t2, ht2, hpos2, hsize2, hmod2⟩ : ∃ t2, (if signedSize n < signedSize (t1 * t1) then
        (t1 * t1).tmod n else t1 * t1) = t2 ∧ 0 ≤ t2 ∧ mpSize t2 ≤ mpSize n ∧
        t2 ≡ 2 ^ (2 * (X / 2 ^ (i + 1))) [ZMOD n] := by
      refine ⟨_, rfl, ?_⟩
      have hnonneg : 0 ≤ t1 * t1 := mul_nonneg hpos hpos
      split
      · refine ⟨Int.tmod_nonneg _ hnonneg, mpSize_mono ?_, (tmod_modEq _ _).trans hsq⟩
        rw [Int.natAbs_tmod, Int.natAbs_natCast]
        exact (Nat.mod_lt _ hn).le
      · rename_i hshort
        rw [signedSize_of_nonneg (Int.natCast_nonneg n), signedSize_of_nonneg hnonneg] at hshort
        exact ⟨hnonneg, by omega, hsq⟩
    have hbit : (n : ℤ).testBit i = X.testBit i := hX i (Nat.lt_succ_self i)
    rw [fermat2Loop, if_neg (by omega)]
    simp only [ht2, hbit]
    apply ih
    · split
      · exact mul_nonneg hpos2 (by decide)
      · exact hpos2
    · split
      · have := mpSize_mul_two t2
        omega
      · omega
    · exact fun j hj => hX j (Nat.lt_succ_of_lt hj)
    · rw [hshift]
      cases hb : X.testBit i with
      | false => simpa using hmod2
      | true =>
        rw [if_pos rfl, Bool.toNat_true, pow_succ]
        exact hmod2.mul_right 2

/-- The exponent that `fermat2_test` raises 2 to: the bits of `n` that its `int` counts. -/
def countedBits (n : ℕ) : ℕ := n % 2 ^ MpInt.intSteps n.size

theorem fermat2Test_eq (hn : 3 ≤ n) (hfit : mpSize n + 1 < 2 ^ 30) :
    fermat2Test n = some (decide (2 ^ countedBits n ≡ 2 [MOD n])) := by
  obtain ⟨k, hk⟩ : ∃ k, MpInt.intSteps n.size = k := ⟨_, rfl⟩
  have hstart : (1 : ℤ) ≡ 2 ^ (countedBits n / 2 ^ k) [ZMOD n] := by
    rw [countedBits, hk, Nat.div_eq_of_lt (Nat.mod_lt _ (Nat.two_pow_pos k)), pow_zero]
  have hX : ∀ j < k, n.testBit j = (countedBits n).testBit j := by
    intro j hj
    rw [countedBits, hk, Nat.testBit_mod_two_pow, decide_eq_true hj, Bool.true_and]
  obtain ⟨t, ht, hpos, hmod⟩ := fermat2Loop_spec (by omega) hfit k 1 (by decide)
    (Nat.le_succ_of_le (mpSize_mono (by simp; omega))) hX hstart
  have hcast : ∀ r : ℤ, r ≡ t [ZMOD n] → (r ≡ 2 [ZMOD n] ↔ 2 ^ countedBits n ≡ 2 [MOD n]) := by
    intro r hr
    rw [← Int.natCast_modEq_iff]
    push_cast
    exact ⟨fun h => (hr.trans hmod).symm.trans h, fun h => (hr.trans hmod).trans h⟩
  have hlt : (2 : ℤ) < n := by exact_mod_cast hn
  have htwo : (2 : ℤ) % n = 2 := Int.emod_eq_of_lt (by decide) hlt
  unfold fermat2Test
  rw [Int.natAbs_natCast, hk, ht]
  simp only [Option.bind_eq_bind, Option.bind_some]
  congr 1
  rw [Bool.eq_iff_iff, beq_iff_eq, decide_eq_true_eq]
  split
  · rw [← hcast _ (tmod_modEq t n), Int.tmod_eq_emod_of_nonneg hpos, Int.ModEq, Int.emod_emod,
      htwo]
  · rename_i hle
    rw [← hcast t rfl, Int.ModEq, htwo]
    rcases eq_or_lt_of_le (not_lt.mp hle) with heq | hlt'
    · rw [heq, Int.emod_self]
      omega
    · rw [Int.emod_eq_of_lt hpos hlt']

theorem squareLoop_of_prime (hp : p.Prime) (j y : ℕ) (hy : y < p) (hne : y ≠ 1)
    (hpow : y ^ 2 ^ (j + 1) ≡ 1 [MOD p]) : squareLoop p j y = true := by
  induction j generalizing y with
  | zero =>
    have hsq : y * y ≡ 1 [MOD p] := by
      rw [← pow_two]
      exact hpow
    have hneg := (PrimeTests.eq_of_sq_modEq_one hp hy hsq).resolve_left hne
    rw [squareLoop, hneg, beq_self_eq_true]
  | succ j ih =>
    rw [squareLoop]
    split
    · rfl
    · rename_i hneg
      have hnext : (y * y % p) ^ 2 ^ (j + 1) ≡ 1 [MOD p] := by
        calc (y * y % p) ^ 2 ^ (j + 1) ≡ (y * y) ^ 2 ^ (j + 1) [MOD p] :=
              (Nat.mod_modEq _ _).pow _
          _ = y ^ 2 ^ (j + 1 + 1) := by rw [← pow_two, ← pow_mul, pow_succ' 2 (j + 1)]
          _ ≡ 1 [MOD p] := hpow
      have hone : y * y % p ≠ 1 := by
        intro hone
        have hsq : y * y ≡ 1 [MOD p] := by
          rw [Nat.ModEq, hone, Nat.mod_eq_of_lt hp.one_lt]
        rcases PrimeTests.eq_of_sq_modEq_one hp hy hsq with h | h
        · exact hne h
        · exact hneg h
      simp only [if_neg hone]
      exact ih _ (Nat.mod_lt _ hp.pos) hone hnext

theorem squareLoop_zero (hp : 2 < p) (j : ℕ) : squareLoop p j 0 = false := by
  induction j with
  | zero =>
    rw [squareLoop, beq_eq_false_iff_ne]
    omega
  | succ j ih =>
    rw [squareLoop, if_neg (by omega), Nat.mul_zero, Nat.zero_mod]
    exact ih

/-- The draws that end the loop for a base. -/
def accepted (n : ℕ) (d : List Limb) : Bool :=
  decide (baseOf n d < n - 1 ∧ (mpSize n ≤ 1 → 1 < baseOf n d))

def bases (n : ℕ) (draws : List (List Limb)) : List ℕ := (draws.filter (accepted n)).map (baseOf n)

theorem drawBase_spec (hfit : 8 * mpSize n < 2 ^ 31) (draws : List (List Limb)) :
    (drawBase n draws = none ∧ bases n draws = []) ∨
      ∃ a rest, drawBase n draws = some (a, rest) ∧ a < n - 1 ∧ bases n draws = a :: bases n rest := by
  induction draws with
  | nil => exact Or.inl ⟨rfl, rfl⟩
  | cons d draws ih =>
    rw [drawBase, if_neg (not_le.mpr hfit)]
    simp only
    split
    · rename_i hout
      have hno : ¬accepted n d = true := by
        unfold accepted
        rw [decide_eq_true_eq]
        omega
      rw [bases, List.filter_cons_of_neg hno]
      exact ih
    · rename_i hin
      have hyes : accepted n d = true := by
        unfold accepted
        rw [decide_eq_true_eq]
        omega
      refine Or.inr ⟨_, _, rfl, by omega, ?_⟩
      rw [bases, List.filter_cons_of_pos hyes, List.map_cons]
      rfl

theorem round_of_prime (hp : p.Prime) (h2 : 2 < p) {s : BitVec 32} {r a : ℕ}
    (hr : 2 ^ s.toNat * r = p - 1) (hlt : a < p - 1) :
    (a ^ r % p ≠ 1 ∧ ¬squareLoop p (s - 1).toNat (a ^ r % p)) ↔ a = 0 := by
  constructor
  · rintro ⟨hne, hloop⟩
    by_contra hzero
    have hcop : Nat.Coprime a p := (Nat.coprime_of_lt_prime hzero (by omega) hp).symm
    have hfermat : (a ^ r % p) ^ 2 ^ s.toNat ≡ 1 [MOD p] := by
      calc (a ^ r % p) ^ 2 ^ s.toNat ≡ (a ^ r) ^ 2 ^ s.toNat [MOD p] := (Nat.mod_modEq _ _).pow _
        _ = a ^ (p - 1) := by rw [← pow_mul, Nat.mul_comm, hr]
        _ ≡ 1 [MOD p] := by
          rw [← Nat.totient_prime hp]
          exact Nat.ModEq.pow_totient hcop
    by_cases hs : s = 0#32
    · rw [hs, BitVec.toNat_zero, pow_zero, pow_one, Nat.ModEq, Nat.mod_mod,
        Nat.mod_eq_of_lt hp.one_lt] at hfermat
      exact hne hfermat
    · have hsub : (s - 1).toNat + 1 = s.toNat := by
        have hpos : s.toNat ≠ 0 := fun hzero => hs (BitVec.eq_of_toNat_eq hzero)
        bv_omega
      rw [← hsub] at hfermat
      exact hloop (squareLoop_of_prime hp _ _ (Nat.mod_lt _ hp.pos) hne hfermat)
  · rintro rfl
    have hpos : r ≠ 0 := by
      rintro rfl
      omega
    rw [zero_pow hpos, Nat.zero_mod, squareLoop_zero h2]
    exact ⟨by decide, by decide⟩

theorem testRounds_of_prime (hp : p.Prime) (h2 : 2 < p) (hfit : 8 * mpSize p < 2 ^ 31)
    {s : BitVec 32} {r : ℕ} (hr : 2 ^ s.toNat * r = p - 1) (iter : ℕ) (draws : List (List Limb)) :
    (testRounds p s r iter draws = some false ↔ 0 ∈ (bases p draws).take iter) ∧
      (0 ∉ (bases p draws).take iter → iter ≤ (bases p draws).length →
        testRounds p s r iter draws = some true) := by
  induction iter generalizing draws with
  | zero => exact ⟨by simp [testRounds], fun _ _ => rfl⟩
  | succ iter ih =>
    rw [testRounds]
    rcases drawBase_spec hfit draws with ⟨hnone, hbases⟩ | ⟨a, rest, hdraw, hlt, hbases⟩
    · rw [hnone, hbases]
      exact ⟨by simp, fun _ h => absurd h (by simp)⟩
    · rw [hdraw, hbases]
      simp only [Option.bind_eq_bind, Option.bind_some, List.take_succ_cons, List.mem_cons,
        List.length_cons]
      by_cases hzero : a = 0
      · rw [if_pos ((round_of_prime hp h2 hr hlt).mpr hzero)]
        exact ⟨by simp [hzero], fun h => absurd (Or.inl hzero.symm) h⟩
      · rw [if_neg (mt (round_of_prime hp h2 hr hlt).mp hzero)]
        have hne : 0 ≠ a := fun h => hzero h.symm
        exact ⟨by simp [hne, (ih rest).1], fun h hle =>
          (ih rest).2 (fun hmem => h (Or.inr hmem)) (by omega)⟩

theorem bases_of_small (h : mpSize n ≤ 1) (draws : List (List Limb)) : 0 ∉ bases n draws := by
  intro hmem
  obtain ⟨d, hd, hzero⟩ := List.mem_map.mp hmem
  have haccepted := (List.mem_filter.mp hd).2
  unfold accepted at haccepted
  rw [decide_eq_true_eq, hzero] at haccepted
  exact absurd (haccepted.2 h) (by decide)

/-- The number of bytes of a base is an `int`, and no base is 0; where it is none, no base is
drawn, or the draws do not last. -/
def BasesFit (p iter : ℕ) (draws : List (List Limb)) : Prop :=
  if 8 * mpSize p < 2 ^ 31 then 0 ∉ (bases p draws).take iter
  else iter = 0 ∨ (bases p draws).length < iter

theorem primeTest_eq_testRounds (hp : p.Prime) (h7 : 7 < p) (iter : ℕ) (draws : List (List Limb)) :
    primeTest p iter draws = testRounds p (BitVec.ofNat 32 (scan1 (p - 1)))
      ((p - 1) / 2 ^ (BitVec.ofNat 32 (scan1 (p - 1))).toNat) iter draws := by
  have hodd : p % 2 = 1 := (hp.eq_two_or_odd).resolve_left (by omega)
  have hbit : (p : ℤ).testBit 0 = true := by
    have hnat : (p : ℤ).testBit 0 = p.testBit 0 := rfl
    rw [hnat, Nat.testBit_zero, hodd]
    rfl
  rw [primeTest, if_neg (by omega), if_neg (by rw [hbit]; decide), Int.toNat_natCast]

theorem primeTest_of_seven_lt (hp : p.Prime) (h7 : 7 < p) (hfit : 8 * mpSize p < 2 ^ 31)
    (iter : ℕ) (draws : List (List Limb)) :
    (primeTest p iter draws = some false ↔ 0 ∈ (bases p draws).take iter) ∧
      (0 ∉ (bases p draws).take iter → iter ≤ (bases p draws).length →
        primeTest p iter draws = some true) := by
  have hdvd : 2 ^ (BitVec.ofNat 32 (scan1 (p - 1))).toNat ∣ p - 1 := by
    rw [BitVec.toNat_ofNat]
    exact (Nat.pow_dvd_pow 2 (Nat.mod_le _ _)).trans pow_padicValNat_dvd
  rw [primeTest_eq_testRounds hp h7]
  exact testRounds_of_prime hp (by omega) hfit (Nat.mul_div_cancel' hdvd) iter draws

theorem primeTest_of_prime (hp : p.Prime) (iter : ℕ) (draws : List (List Limb)) :
    (primeTest p iter draws ≠ some false ∧
      (iter ≤ (bases p draws).length → primeTest p iter draws = some true)) ↔
      BasesFit p iter draws := by
  unfold BasesFit
  rcases Nat.lt_or_ge 7 p with h7 | hle
  · split
    · rename_i hfit
      obtain ⟨hfalse, htrue⟩ := primeTest_of_seven_lt hp h7 hfit iter draws
      rw [ne_eq, hfalse]
      exact ⟨fun h => h.1, fun h => ⟨h, htrue h⟩⟩
    · rename_i hfit
      rw [primeTest_eq_testRounds hp h7]
      cases iter with
      | zero => simp [testRounds]
      | succ iter =>
        have hnone : drawBase p draws = none := by
          cases draws with
          | nil => rfl
          | cons d draws => rw [drawBase, if_pos (not_lt.mp hfit)]
        simp [testRounds, hnone]
  · have hsmall : mpSize p ≤ 1 := mpSize_mono (b := 7) (by simpa using hle)
    have hui : getui p = p := by
      rw [getui, Int.natAbs_natCast, Nat.mod_eq_of_lt (Nat.lt_of_le_of_lt hle (by decide))]
    have hsign : (p : ℤ).sign = 1 := Int.sign_eq_one_of_pos (by exact_mod_cast hp.pos)
    have hne : p ≠ 1 ∧ p ≠ 4 ∧ p ≠ 6 := by
      refine ⟨hp.ne_one, ?_, ?_⟩
      · rintro rfl
        exact absurd hp (by decide)
      · rintro rfl
        exact absurd hp (by decide)
    rw [primeTest, if_pos (by omega), hsign, hui, if_neg (by decide), decide_eq_true hne,
      if_pos (by omega)]
    exact iff_of_true ⟨by simp, fun _ => rfl⟩
      fun hmem => bases_of_small hsmall draws (List.mem_of_mem_take hmem)

theorem fermat_of_srpprimeTest {iter : ℕ} {draws : List (List Limb)}
    (h : srpprimeTest n iter draws = some true) : n % 3 ≠ 0 ∧ fermat2Test n = some true := by
  unfold srpprimeTest at h
  split at h
  · cases h
  · split at h
    · cases h
    · rename_i h3
      refine ⟨h3, ?_⟩
      cases hf : fermat2Test n with
      | none => rw [hf] at h; cases h
      | some b =>
        cases b with
        | false => rw [hf] at h; cases h
        | true => rfl

theorem prime_of_srpprimeTest (hodd : n % 2 = 1) (h5 : 5 ≤ n) (hq : ((n - 1) / 2).Prime)
    (hfermat : fermat2Test n = some (decide (2 ^ n ≡ 2 [MOD n])))
    {iter : ℕ} {draws : List (List Limb)} (h : srpprimeTest n iter draws = some true) :
    n.Prime := by
  obtain ⟨h3, hpass⟩ := fermat_of_srpprimeTest h
  have hmod : 2 ^ n ≡ 2 [MOD n] := of_decide_eq_true (Option.some.inj (hfermat.symm.trans hpass))
  have hcop : Nat.gcd n 2 = 1 := Nat.coprime_two_right.mpr (Nat.odd_iff.mpr hodd)
  have hone : 2 ^ (n - 1) ≡ 1 [MOD n] := by
    apply Nat.ModEq.cancel_left_of_coprime hcop
    rw [← pow_succ', Nat.sub_add_cancel (Nat.le_trans (by decide) h5), Nat.mul_one]
    exact hmod
  have hn : n = 2 * ((n - 1) / 2) + 1 := by omega
  exact PrimeTests.pocklington_two hq hn (fun hdvd => h3 (Nat.mod_eq_zero_of_dvd hdvd)) hone

/-- What the two tests promise: success means a prime where `(n - 1) / 2` is one, through an exact
Fermat test to the base 2, and `prime_test` passes the prime `p` whatever is drawn. -/
structure Promise (n p iter : ℕ) (draws : List (List Limb)) : Prop where
  sound : ∀ iter draws, ((n - 1) / 2).Prime → srpprimeTest n iter draws = some true → n.Prime
  fermat : fermat2Test n = some (decide (2 ^ n ≡ 2 [MOD n]))
  keeps : primeTest p iter draws ≠ some false
  passes : iter ≤ (bases p draws).length → primeTest p iter draws = some true

/-- The `int` of `fermat2_test` counts every bit, or the bits that it counts answer alike in a
number whose squares `mpz_square` has room for. -/
def BitsFit (n : ℕ) : Prop :=
  n.size < 2 ^ 31 ∨
    mpSize n + 1 < 2 ^ 30 ∧ (2 ^ countedBits n ≡ 2 [MOD n] ↔ 2 ^ n ≡ 2 [MOD n])

theorem BitsFit.fermat2Test_eq (h : BitsFit n) (h5 : 5 ≤ n) :
    fermat2Test n = some (decide (2 ^ n ≡ 2 [MOD n])) := by
  have h3 : 3 ≤ n := Nat.le_trans (by decide) h5
  rcases h with hsize | ⟨hfit, hiff⟩
  · have hcount : countedBits n = n := by
      rw [countedBits, MpInt.intSteps_eq hsize, Nat.mod_eq_of_lt (Nat.lt_size_self n)]
    have hfit : mpSize n + 1 < 2 ^ 30 := by
      unfold mpSize bitsperlimb
      rw [Int.natAbs_natCast]
      omega
    rw [Crypt.fermat2Test_eq h3 hfit, hcount]
  · rw [Crypt.fermat2Test_eq h3 hfit, decide_eq_decide.mpr hiff]

/-- Where `n` has `2 ^ 30 - 1` limbs or more and the loop does go round, whether a square along
the way is too long is left open. -/
theorem srpprimeTest_promise (hodd : n % 2 = 1) (h5 : 5 ≤ n) (hp : p.Prime) (iter : ℕ)
    (draws : List (List Limb)) :
    (BitsFit n ∧ BasesFit p iter draws → Promise n p iter draws) ∧
      (mpSize n + 1 < 2 ^ 30 → Promise n p iter draws → BitsFit n ∧ BasesFit p iter draws) := by
  constructor
  · rintro ⟨hbits, hbases⟩
    have hfermat := hbits.fermat2Test_eq h5
    obtain ⟨hkeeps, hpasses⟩ := (primeTest_of_prime hp iter draws).mpr hbases
    exact ⟨fun _ _ hq h => prime_of_srpprimeTest hodd h5 hq hfermat h, hfermat, hkeeps, hpasses⟩
  · rintro hfit ⟨-, hfermat, hkeeps, hpasses⟩
    refine ⟨Or.inr ⟨hfit, ?_⟩, (primeTest_of_prime hp iter draws).mp ⟨hkeeps, hpasses⟩⟩
    rw [fermat2Test_eq (Nat.le_trans (by decide) h5) hfit] at hfermat
    exact decide_eq_decide.mp (Option.some.inj hfermat)

theorem srpprimeTest_promise_eleven : Promise 11 11 1 [[5#64]] := by
  have hsize : Nat.size 11 = 4 := by decide
  have hlimbs : mpSize (11 : ℕ) = 1 := by decide
  have hbases : bases 11 [[5#64]] = [5] := by decide
  refine (srpprimeTest_promise (by decide) (by decide) (by decide) 1 [[5#64]]).1 ⟨Or.inl ?_, ?_⟩
  · rw [hsize]
    omega
  · rw [BasesFit, if_pos (by rw [hlimbs]; decide), hbases]
    decide

/-- `3 * 2 ^ 66 + 1`, by Lucas' test to the base 10. -/
theorem prime_twoLimbs : Nat.Prime 221360928884514619393 := by
  have hfactors : 221360928884514619393 - 1 = 3 * 2 ^ 66 := by norm_num
  refine lucas_primality _ 10 (by reduce_mod_char) fun q hq hdvd => ?_
  rw [hfactors] at hdvd
  rcases (Nat.Prime.dvd_mul hq).mp hdvd with h | h
  · rw [(Nat.prime_dvd_prime_iff_eq hq Nat.prime_three).mp h]
    reduce_mod_char
    decide
  · rw [(Nat.prime_dvd_prime_iff_eq hq Nat.prime_two).mp (hq.dvd_of_dvd_pow h)]
    reduce_mod_char
    decide

theorem primeTest_zeroLimbs :
    Nat.Prime 221360928884514619393 ∧
      primeTest (221360928884514619393 : ℕ) 1 [[0#64, 0#64]] = some false := by
  obtain ⟨p, hp⟩ : ∃ p, 221360928884514619393 = p := ⟨_, rfl⟩
  have hprime := prime_twoLimbs
  have hlo : 2 ^ 64 ≤ 221360928884514619393 := by norm_num
  have hhi : 221360928884514619393 < 2 ^ 128 := by norm_num
  rw [hp] at hprime hlo hhi ⊢
  have hlimbs : mpSize p = 2 := by
    have h64 := Nat.lt_size.mpr hlo
    have h128 := Nat.size_le.mpr hhi
    unfold mpSize bitsperlimb
    rw [Int.natAbs_natCast]
    omega
  have hbase : baseOf p [0#64, 0#64] = 0 := by
    have hmask : ∀ m : Limb, Words.val ([0#64, 0#64].modifyLast (· &&& m)) = 0 := by
      intro m
      change Words.val [0#64, 0#64 &&& m] = 0
      rw [BitVec.zero_and]
      rfl
    rw [baseOf, hlimbs]
    exact hmask _
  have haccepted : accepted p [0#64, 0#64] = true := by
    unfold accepted
    rw [decide_eq_true_eq, hbase, hlimbs]
    omega
  refine ⟨hprime, (primeTest_of_seven_lt hprime (by omega) (by omega) 1 _).1.mpr ?_⟩
  rw [bases, List.filter_cons_of_pos haccepted, List.map_cons, hbase]
  exact List.mem_cons_self

end Sfslite.Crypt
